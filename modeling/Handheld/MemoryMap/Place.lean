import Handheld.Picture.Basic
import Handheld.Sound

/-!
# Places

Every mapped address belongs to exactly one place. Work memory appears twice,
once as itself and once as its echo, so two addresses can name one place; no
other place has two addresses. Addresses that belong to none are holes.
-/

namespace Handheld

inductive Place where
  | cartridge (i : Fin 0x8000)
  | picture (target : Picture.Target)
  | work (i : Fin 0x2000)
  | serialData
  | serialControl
  | interruptRequest
  | sound (i : Fin 48)
  | overlaySwitch
  | high (i : Fin 127)
  | interruptEnable
  deriving DecidableEq, Repr

namespace Place

def ofLastPage? (address : UInt16) : Option Place :=
  match address with
  | 0xFF01 => some .serialData
  | 0xFF02 => some .serialControl
  | 0xFF0F => some .interruptRequest
  | 0xFF50 => some .overlaySwitch
  | 0xFFFF => some .interruptEnable
  | _ =>
    if h : 0xFF80 ≤ address.toNat ∧ address.toNat < 0xFFFF then
      some (.high ⟨address.toNat - 0xFF80, by omega⟩)
    else
      match Sound.slot? address with
      | some i => some (.sound i)
      | none => (Picture.Register.ofAddress? address).map fun r => .picture (.register r)

def ofAddress? (address : UInt16) : Option Place :=
  let n := address.toNat
  if h : n < 0x8000 then some (.cartridge ⟨n, h⟩)
  else if h : n < 0xA000 then some (.picture (.video ⟨n - 0x8000, by omega⟩))
  else if n < 0xC000 then none
  else if h : n < 0xE000 then some (.work ⟨n - 0xC000, by omega⟩)
  else if h : n < 0xFE00 then some (.work ⟨n - 0xE000, by omega⟩)
  else ofLastPage? address

end Place

end Handheld
