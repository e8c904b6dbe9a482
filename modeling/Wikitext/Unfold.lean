/-!
Lists produced step by step from a state that keeps shrinking. `unfold_eq` is the one equation that
a reader of the list needs: the answers of `next?`, in order, until it has none. `unfoldUntil?`
stops earlier, at the first answer that is looked for, and fails when there is none.
-/

namespace Wikitext

section

variable {σ α : Type} (size : σ → Nat) (next? : σ → Option (α × σ))
  (shrinks : ∀ s a t, next? s = some (a, t) → size t < size s)

def unfoldOnto (found : List α) (s : σ) : List α :=
  match h : next? s with
  | none => found.reverse
  | some (a, t) =>
    have := shrinks s a t h
    unfoldOnto (a :: found) t
  termination_by size s

/-- The answers of `next?` from the state `s` on, each asked of the state the last one left. -/
def unfold (s : σ) : List α :=
  unfoldOnto size next? shrinks [] s

theorem unfoldOnto_eq (found : List α) (s : σ) :
    unfoldOnto size next? shrinks found s =
      found.reverse ++ unfoldOnto size next? shrinks [] s := by
  generalize hn : size s = n
  induction n using Nat.strongRecOn generalizing s found with
  | ind n ih =>
    rw [unfoldOnto.eq_def, unfoldOnto.eq_def size next? shrinks []]
    split
    · simp
    · rename_i a t h
      have ht : size t < n := hn ▸ shrinks s a t h
      rw [ih _ ht (a :: found) t rfl, ih _ ht [a] t rfl]
      simp

theorem unfold_eq (s : σ) :
    unfold size next? shrinks s =
      match next? s with
      | none => []
      | some (a, t) => a :: unfold size next? shrinks t := by
  rw [unfold, unfoldOnto.eq_def]
  split
  · simp_all
  · rename_i a t h
    rw [unfoldOnto_eq, h]
    simp [unfold]

def unfoldUntilOnto (stop : α → Bool) (found : List α) (s : σ) : Option (List α) :=
  match h : next? s with
  | none => none
  | some (a, t) =>
    have := shrinks s a t h
    if stop a then some (a :: found).reverse else unfoldUntilOnto stop (a :: found) t
  termination_by size s

def unfoldUntil? (stop : α → Bool) (s : σ) : Option (List α) :=
  unfoldUntilOnto size next? shrinks stop [] s

theorem unfoldUntilOnto_eq (stop : α → Bool) (found : List α) (s : σ) :
    unfoldUntilOnto size next? shrinks stop found s =
      (unfoldUntilOnto size next? shrinks stop [] s).map (found.reverse ++ ·) := by
  generalize hn : size s = n
  induction n using Nat.strongRecOn generalizing s found with
  | ind n ih =>
    rw [unfoldUntilOnto.eq_def, unfoldUntilOnto.eq_def size next? shrinks stop []]
    split
    · rfl
    · rename_i a t h
      have ht : size t < n := hn ▸ shrinks s a t h
      split
      · simp
      · rw [ih _ ht (a :: found) t rfl, ih _ ht [a] t rfl]
        simp [Function.comp_def]

theorem unfoldUntil?_eq (stop : α → Bool) (s : σ) :
    unfoldUntil? size next? shrinks stop s =
      match next? s with
      | none => none
      | some (a, t) =>
        if stop a then some [a] else (unfoldUntil? size next? shrinks stop t).map (a :: ·) := by
  rw [unfoldUntil?, unfoldUntilOnto.eq_def]
  split
  · simp_all
  · rename_i a t h
    rw [unfoldUntilOnto_eq]
    simp only [h]
    simp [unfoldUntil?]

end

end Wikitext
