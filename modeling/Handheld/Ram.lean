/-!
# Cells

A block of byte cells of a fixed size, which starts out as zeros.
-/

namespace Handheld

structure Ram (size : Nat) where
  cells : Vector UInt8 size

namespace Ram

variable {size : Nat}

def zeros (size : Nat) : Ram size := ⟨Vector.replicate size 0⟩

def get (r : Ram size) (i : Fin size) : UInt8 := r.cells[i.val]

def set (r : Ram size) (i : Fin size) (v : UInt8) : Ram size := ⟨r.cells.set i.val v⟩

@[simp] theorem get_zeros (i : Fin size) : (zeros size).get i = 0 := by
  simp [zeros, get]

theorem get_set (r : Ram size) (i j : Fin size) (v : UInt8) :
    (r.set i v).get j = if i = j then v else r.get j := by
  simp [get, set, Vector.getElem_set, Fin.ext_iff]

@[ext] theorem ext {r s : Ram size} (h : ∀ i, r.get i = s.get i) : r = s := by
  obtain ⟨x⟩ := r
  obtain ⟨y⟩ := s
  congr 1
  exact Vector.ext fun i hi => h ⟨i, hi⟩

end Ram

end Handheld
