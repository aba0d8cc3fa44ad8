/-
# Numbering by first occurrence

An array of different keys gives each key its place as a number.  `intern` finds the number of
a key and adds the key at the end if it is new.
-/

namespace GrammarTables

variable {κ : Type} [DecidableEq κ]

/-- The number of a key, which is added if it is new. -/
def intern (keys : Array κ) (k : κ) : Nat × Array κ :=
  match keys.findIdx? (fun x => decide (x = k)) with
  | some i => (i, keys)
  | none => (keys.size, keys.push k)

/-- The numbers of a list of keys, in order; new keys are added in that order. -/
def internAll (keys : Array κ) (ks : List κ) : List Nat × Array κ :=
  let (numbers, keys) := ks.foldl (fun (numbers, keys) k =>
    let (i, keys) := intern keys k
    (numbers.push i, keys)) ((#[] : Array Nat), keys)
  (numbers.toList, keys)

/-- Interning keeps the keys that are there. -/
theorem size_le_size_intern (keys : Array κ) (k : κ) : keys.size ≤ (intern keys k).2.size := by
  unfold intern
  split <;> simp

end GrammarTables
