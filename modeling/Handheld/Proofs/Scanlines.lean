import Handheld.Proofs.Drawing
import Handheld.Proofs.WellFormed
import Mathlib.Algebra.GroupWithZero.Nat
import Mathlib.Data.List.DropRight
import Mathlib.Data.List.Induction

/-!
# The line counter

The unit keeps a clock and two bytes, and its history gives all three: the dots that have
passed since the line was last written to, and the bytes last written to the status and to the
line to compare with. The history is read from its end; the unit follows it one input at a
time. How the dots are cut up into inputs makes no difference.
-/

namespace Handheld.Picture

-- ---------------------------------------------------------------------------
-- Histories
-- ---------------------------------------------------------------------------

/-- What the unit is given: dots that pass, or a byte for an address. -/
inductive Input where
  | advance (n : UInt32)
  | write (address : UInt16) (v : UInt8)
  deriving DecidableEq, Repr

namespace Input

def apply (p : Picture) : Input → Picture
  | .advance n => p.advance n
  | .write address v => p.writeAt address v

def dots : Input → Nat
  | .advance n => n.toNat
  | .write .. => 0

def written? (address : UInt16) : Input → Option UInt8
  | .advance _ => none
  | .write a v => if a = address then some v else none

end Input

def given (p : Picture) (is : List Input) : Picture := is.foldl Input.apply p

theorem given_append (p : Picture) (is js : List Input) :
    p.given (is ++ js) = (p.given is).given js := List.foldl_append

/-- The dots that have passed since an address was last written to, or since the start. -/
def dotsSince (address : UInt16) (is : List Input) : Nat :=
  ((is.rtakeWhile fun i => (i.written? address).isNone).map Input.dots).sum

def lastWritten (address : UInt16) (is : List Input) : UInt8 :=
  (is.reverse.findSome? (Input.written? address)).getD 0

variable {p : Picture} {is : List Input} {a b : UInt16} {t : Target}

theorem dotsSince_advance (is : List Input) (n : UInt32) :
    dotsSince a (is ++ [.advance n]) = dotsSince a is + n.toNat := by
  simp [dotsSince, Input.written?, Input.dots]

theorem dotsSince_write (is : List Input) (b : UInt16) (v : UInt8) :
    dotsSince a (is ++ [.write b v]) = if b = a then 0 else dotsSince a is := by
  by_cases h : b = a
  · simp [dotsSince, Input.written?, h]
  · simp [dotsSince, Input.written?, Input.dots, h]

example : dotsSince 0xFF44 [.advance 500, .write 0xFF44 7, .advance 456, .write 0x8000 1,
    .advance 1] = 457 := by decide

theorem lastWritten_concat (is : List Input) (i : Input) :
    lastWritten a (is ++ [i]) = (i.written? a).getD (lastWritten a is) := by
  rw [lastWritten, List.reverse_concat, List.findSome?_cons]
  cases i.written? a <;> rfl

theorem lastWritten_write (is : List Input) (b : UInt16) (v : UInt8) :
    lastWritten a (is ++ [.write b v]) = if b = a then v else lastWritten a is := by
  rw [lastWritten_concat, Input.written?]
  split <;> rfl

-- ---------------------------------------------------------------------------
-- Writes
-- ---------------------------------------------------------------------------

theorem write_dots (p : Picture) (v : UInt8) (t : Target) :
    (p.write t v).dots = if t = .register .ly then 0 else p.dots := by
  cases t with
  | video i => rfl
  | register r => cases r <;> rfl

theorem write_stat (p : Picture) (v : UInt8) (t : Target) :
    (p.write t v).stat = if t = .register .stat then v &&& 0x78 else p.stat := by
  cases t with
  | video i => rfl
  | register r => cases r <;> rfl

theorem write_lyc (p : Picture) (v : UInt8) (t : Target) :
    (p.write t v).lyc = if t = .register .lyc then v else p.lyc := by
  cases t with
  | video i => rfl
  | register r => cases r <;> rfl

theorem ofAddress?_ly : Target.ofAddress? 0xFF44 = some (.register .ly) := rfl

theorem ofAddress?_stat : Target.ofAddress? 0xFF41 = some (.register .stat) := rfl

theorem ofAddress?_lyc : Target.ofAddress? 0xFF45 = some (.register .lyc) := rfl

/-- What only one place of the unit determines, only writes to its address change. -/
theorem writeAt_eq {α : Type} {read : Picture → α} {new : α} {v : UInt8}
    (hread : ∀ u, read (p.write u v) = if u = t then new else read p)
    (hb : Target.ofAddress? b = some t) (a : UInt16) :
    read (p.writeAt a v) = if a = b then new else read p := by
  simp only [writeAt, ← Target.ofAddress?_eq_iff hb]
  cases ha : Target.ofAddress? a with
  | none => rfl
  | some u => simp only [hread, Option.some.injEq]

-- ---------------------------------------------------------------------------
-- The unit follows its history
-- ---------------------------------------------------------------------------

structure Follows (p : Picture) (is : List Input) : Prop where
  dots : p.dots.toNat = dotsSince 0xFF44 is % 70224
  stat : p.stat = lastWritten 0xFF41 is &&& 0x78
  lyc : p.lyc = lastWritten 0xFF45 is

theorem Follows.step (h : p.Follows is) (i : Input) : (i.apply p).Follows (is ++ [i]) := by
  obtain ⟨hdots, hstat, hlyc⟩ := h
  cases i with
  | advance n =>
    refine ⟨?_, ?_, ?_⟩
    · rw [dotsSince_advance, Nat.add_mod, ← hdots]
      exact (toNat_dots_advance (dots_lt_of_toNat_eq hdots) n).trans (Nat.add_mod_mod _ _ _).symm
    · rw [lastWritten_concat]
      exact hstat
    · rw [lastWritten_concat]
      exact hlyc
  | write a v =>
    refine ⟨?_, ?_, ?_⟩
    · rw [dotsSince_write, Input.apply, writeAt_eq (p.write_dots v) ofAddress?_ly]
      split
      · rfl
      · exact hdots
    · rw [lastWritten_write, Input.apply, writeAt_eq (p.write_stat v) ofAddress?_stat]
      split
      · rfl
      · exact hstat
    · rw [lastWritten_write, Input.apply, writeAt_eq (p.write_lyc v) ofAddress?_lyc]
      split
      · rfl
      · exact hlyc

theorem follows (is : List Input) : (given {} is).Follows is := by
  induction is using List.reverseRecOn with
  | nil => exact ⟨rfl, rfl, rfl⟩
  | append_singleton is i ih =>
    rw [given_append]
    exact ih.step i

-- ---------------------------------------------------------------------------
-- Cutting up the dots
-- ---------------------------------------------------------------------------

theorem given_advances (h : p.dots < dotsPerFrame) (ns : List UInt32) :
    p.given (ns.map .advance) =
      { p with dots := .ofNat ((p.dots.toNat + (ns.map UInt32.toNat).sum) % 70224) } := by
  induction ns generalizing p with
  | nil =>
    simp [given, Nat.mod_eq_of_lt (toNat_dots_lt h)]
  | cons n ns ih =>
    refine (ih (p.dots_advance_lt n)).trans ?_
    rw [toNat_dots_advance h, Nat.mod_add_mod, List.map_cons, List.sum_cons, Nat.add_assoc]
    rfl

/-- Dots may be cut up in any way, wherever they pass, and whole frames left out. -/
theorem given_advances_congr {ns ms : List UInt32}
    (h : (ns.map UInt32.toNat).sum % 70224 = (ms.map UInt32.toNat).sum % 70224)
    (is js : List Input) :
    given {} (is ++ ns.map .advance ++ js) = given {} (is ++ ms.map .advance ++ js) := by
  have hframe := dots_lt_of_toNat_eq (follows is).dots
  rw [given_append, given_append, given_append, given_append, given_advances hframe,
    given_advances hframe, Nat.add_mod, h, ← Nat.add_mod]

-- ---------------------------------------------------------------------------
-- The status
-- ---------------------------------------------------------------------------

theorem bit_masks : ∀ (i : Fin 8) (stored same : Bool),
    (Byte.bit 0x80 i || stored && Byte.bit 0x78 i || same && Byte.bit 0x04 i) =
      if i = 7 then true else if 3 ≤ i then stored else if i = 2 then same else false := by
  decide

theorem bit_status (p : Picture) (i : Fin 8) :
    Byte.bit p.status i =
      if i = 7 then true
      else if 3 ≤ i then Byte.bit p.stat i
      else if i = 2 then decide (p.ly = p.lyc)
      else false := by
  have hcoincidence : Byte.bit (if p.ly = p.lyc then 0x04 else 0) i =
      (decide (p.ly = p.lyc) && Byte.bit 0x04 i) := by
    split
    · next h => simp [h]
    · next h => simp [h, Byte.bit]
  rw [status, Byte.bit_or, Byte.bit_or, Byte.bit_and, hcoincidence, bit_masks]

/-- After any inputs the clock says how many dots have passed since the line was last written
to, modulo a frame, and the next dots cannot make it overflow. The line follows from it and
stays in the frame. The status has the bits last written to it from 3 to 6, bit 7, and bit 2
just when the line is the one last written to compare with. Dots that pass may be cut up in
any way, wherever they pass among the inputs. -/
theorem scanline_history (is : List Input) :
    let p := given {} is
    let line := p.readAt 0xFF44
    let status := p.readAt 0xFF41
    (p.dots.toNat = dotsSince 0xFF44 is % 70224 ∧
      ∀ n, p.dots.toNat + (n % dotsPerFrame).toNat < 2 ^ 32) ∧
    (line.toNat = p.dots.toNat / 456 ∧ line.toNat ≤ 153) ∧
    (Byte.bit status 7 = true ∧ Byte.bit status 0 = false ∧ Byte.bit status 1 = false ∧
      (∀ i, 3 ≤ i → i ≤ 6 → Byte.bit status i = Byte.bit (lastWritten 0xFF41 is) i) ∧
      (Byte.bit status 2 = true ↔ line = lastWritten 0xFF45 is)) ∧
    ∀ (js : List Input) (ns ms : List UInt32),
      (ns.map UInt32.toNat).sum % 70224 = (ms.map UInt32.toNat).sum % 70224 →
        given {} (is ++ ns.map .advance ++ js) = given {} (is ++ ms.map .advance ++ js) := by
  have hfollows := follows is
  have hframe := dots_lt_of_toNat_eq hfollows.dots
  have hline : (given {} is).readAt 0xFF44 = (given {} is).ly := rfl
  have hbit (i : Fin 8) : Byte.bit ((given {} is).readAt 0xFF41) i = _ := bit_status _ i
  refine ⟨⟨hfollows.dots, fun n => ?_⟩, ⟨?_, ?_⟩,
    ⟨hbit 7, hbit 0, hbit 1, fun i hlow hhigh => ?_, ?_⟩, ?_⟩
  · have hn : (n % dotsPerFrame).toNat < 70224 :=
      UInt32.lt_iff_toNat_lt.mp (UInt32.mod_lt n (by decide))
    have hdots := toNat_dots_lt hframe
    omega
  · rw [hline, toNat_ly hframe]
  · exact UInt8.le_iff_toNat_le.mp (ly_le hframe)
  · have hmask : Byte.bit 0x78 i = true := by
      revert i
      decide
    have hseven : i ≠ 7 := by omega
    rw [hbit, if_neg hseven, if_pos hlow, hfollows.stat, Byte.bit_and, hmask,
      Bool.and_true]
  · rw [hbit, hline, ← hfollows.lyc]
    exact decide_eq_true_iff
  · exact fun js ns ms h => given_advances_congr h is js

def awaitingLine : List Input := [.write 0xFF45 2, .write 0xFF41 0xFF]

/-- Two lines pass at once or in pieces that together are many frames longer. -/
theorem scanline_history_awaitingLine :
    let pieces : List UInt32 := [0xFFFFFFFF, 456, 3225]
    (pieces.map UInt32.toNat).sum % 70224 = ([912].map UInt32.toNat).sum % 70224 ∧
      given {} (awaitingLine ++ pieces.map .advance ++ []) =
        given {} (awaitingLine ++ [912].map .advance ++ []) ∧
      Byte.bit ((given {} (awaitingLine ++ [.advance 912])).readAt 0xFF41) 2 = true := by
  have hsum : ([0xFFFFFFFF, 456, 3225].map UInt32.toNat).sum % 70224 =
      ([912].map UInt32.toNat).sum % 70224 := by decide
  have hwritten : lastWritten 0xFF45 (awaitingLine ++ [.advance 912]) = 2 := by decide
  have hdots : dotsSince 0xFF44 (awaitingLine ++ [.advance 912]) = 912 := by decide
  obtain ⟨⟨hnow, -⟩, ⟨hline, -⟩, ⟨-, -, -, -, hsame⟩, -⟩ :=
    scanline_history (awaitingLine ++ [.advance 912])
  refine ⟨hsum, (scanline_history awaitingLine).2.2.2 [] _ _ hsum, hsame.mpr ?_⟩
  rw [hwritten, ← UInt8.toNat_inj, hline, hnow, hdots]
  rfl

end Handheld.Picture
