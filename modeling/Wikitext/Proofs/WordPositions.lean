import Mathlib.Algebra.Ring.Int.Defs
import Wikitext.Proofs.BestContext

/-! What the place of a word counts when the words around a candidate are compared with those around
the selection. A word is worth the number of words less its own place and less the distance from
there, and its own place cancels out: the earlier it is found the more it counts, wherever it stands
in the selection. Behind its own place that means the nearer the better, ahead of it the farther. -/

namespace Wikitext

namespace Context

variable {selected near near' : List Text} {w : Text} {i p q : Nat}

/-- What a word at the place `i` of the selection is worth that is found at the place `p` of `n`
words. -/
def worth (n i p : Nat) : Int :=
  (n : Int) - i - ((p : Int) - i)

/-- The worth of all words of the selection that are found. -/
def totalWorth (selected near : List Text) : Int :=
  (selected.zipIdx.filterMap fun s => (near.idxOf? s.1).map (worth near.length s.2)).sum

theorem earliness_add (h : near.idxOf? w = some p) : earliness near w + p = near.length := by
  obtain ⟨hlt, -⟩ := List.idxOf?_eq_some_iff.mp h
  rw [earliness, h]
  exact Nat.sub_add_cancel hlt.le

/-- The places of the words in the selection do not count. -/
theorem agreement_eq_totalWorth (selected near : List Text) :
    (agreement selected near : Int) = totalWorth selected near := by
  suffices hfrom : ∀ k, (agreement selected near : Int) = ((selected.zipIdx k).filterMap fun s =>
      (near.idxOf? s.1).map (worth near.length s.2)).sum from hfrom 0
  induction selected with
  | nil => exact fun _ => rfl
  | cons w selected ih =>
    intro k
    rw [agreement_cons, List.zipIdx_cons, List.filterMap_cons, Int.natCast_add, ih (k + 1)]
    cases hw : near.idxOf? w with
    | none => simp [earliness, hw]
    | some p =>
      have hadd := earliness_add hw
      simp only [Option.map_some, List.sum_cons, worth]
      omega

/-- `Rivals selected w i near p near' q`: the word `w`, which stands in the selection at the place
`i` only, is found at the place `p` of one list and at the place `q` of another as long, and every
other word of the selection at one place of both, or in none of them. -/
structure Rivals (selected : List Text) (w : Text) (i : Nat) (near : List Text) (p : Nat)
    (near' : List Text) (q : Nat) : Prop where
  only : ∀ j, selected[j]? = some w ↔ j = i
  length_eq : near.length = near'.length
  others : ∀ v ∈ selected, v ≠ w → near.idxOf? v = near'.idxOf? v
  here : near.idxOf? w = some p
  there : near'.idxOf? w = some q

theorem only_of_append {us vs : List Text} (hu : w ∉ us) (hv : w ∉ vs) (j : Nat) :
    (us ++ w :: vs)[j]? = some w ↔ j = us.length := by
  constructor
  · intro hj
    rcases Nat.lt_trichotomy j us.length with hlt | he | hgt
    · rw [List.getElem?_append_left hlt] at hj
      exact absurd (List.mem_of_getElem? hj) hu
    · exact he
    · obtain ⟨k, hk⟩ := Nat.exists_eq_add_of_lt hgt
      rw [hk, List.getElem?_append_right (by omega), Nat.add_assoc, Nat.add_sub_cancel_left,
        List.getElem?_cons_succ] at hj
      exact absurd (List.mem_of_getElem? hj) hv
  · rintro rfl
    simp

theorem count_eq_one (h : ∀ j, selected[j]? = some w ↔ j = i) : selected.count w = 1 := by
  induction selected generalizing i with
  | nil => simpa using h i
  | cons v selected ih =>
    by_cases hv : v = w
    · have hno : w ∉ selected := by
        intro hmem
        obtain ⟨j, hj⟩ := List.mem_iff_getElem?.mp hmem
        have hfirst := (h 0).mp (by simp [hv])
        have hlater := (h (j + 1)).mp (by simpa using hj)
        omega
      rw [hv, List.count_cons_self, List.count_eq_zero.mpr hno]
    · rw [List.count_cons_of_ne hv]
      cases i with
      | zero => exact absurd (by simpa using (h 0).mpr rfl) hv
      | succ i => exact ih fun j => by simpa using h (j + 1)

theorem agreement_add_count_mul (hlen : near.length = near'.length)
    (hothers : ∀ v ∈ selected, v ≠ w → near.idxOf? v = near'.idxOf? v)
    (hp : near.idxOf? w = some p) (hq : near'.idxOf? w = some q) :
    agreement selected near + selected.count w * p =
      agreement selected near' + selected.count w * q := by
  induction selected with
  | nil => simp [agreement]
  | cons v selected ih =>
    have hrest := ih fun u hu => hothers u (List.mem_cons_of_mem _ hu)
    rw [agreement_cons, agreement_cons]
    by_cases hv : v = w
    · subst hv
      have hp' := earliness_add hp
      have hq' := earliness_add hq
      rw [List.count_cons_self, Nat.add_mul, Nat.add_mul, Nat.one_mul, Nat.one_mul]
      omega
    · rw [List.count_cons_of_ne hv, earliness, earliness, hothers v List.mem_cons_self hv, hlen]
      omega

/-- Of two lists that differ in where a word is found, the one that has it earlier agrees better.
That is the one that has it nearer to its own place as long as neither has it ahead of that place,
and the one that has it farther from there as long as neither has it behind. -/
theorem agreement_lt_agreement_iff (h : Rivals selected w i near p near' q) :
    (agreement selected near : Int) = totalWorth selected near ∧
    (agreement selected near' : Int) = totalWorth selected near' ∧
    agreement selected near + p = agreement selected near' + q ∧
    (agreement selected near' < agreement selected near ↔ p < q) ∧
    (i ≤ p → i ≤ q → (agreement selected near' < agreement selected near ↔
      ((p : Int) - i).natAbs < ((q : Int) - i).natAbs)) ∧
    (p ≤ i → q ≤ i → (agreement selected near < agreement selected near' ↔
      ((p : Int) - i).natAbs < ((q : Int) - i).natAbs)) := by
  have hsum := agreement_add_count_mul h.length_eq h.others h.here h.there
  rw [count_eq_one h.only, Nat.one_mul, Nat.one_mul] at hsum
  refine ⟨agreement_eq_totalWorth _ _, agreement_eq_totalWorth _ _, hsum, ?_, ?_, ?_⟩
  · omega
  · intro hp hq
    omega
  · intro hp hq
    omega

theorem agreement_lt_agreement_iff_repeatedOther :
    let a : Text := "a".toList
    let b : Text := "b".toList
    let c : Text := "c".toList
    let w : Text := "w".toList
    Rivals [b, w, b, a] w 1 [c, b, w, a, c] 2 [c, b, c, a, w] 4 ∧
      agreement [b, w, b, a] [c, b, c, a, w] < agreement [b, w, b, a] [c, b, w, a, c] := by
  intro a b c w
  have honly : ∀ j, ([b] ++ w :: [b, a])[j]? = some w ↔ j = 1 :=
    only_of_append (by decide) (by decide)
  have hrivals : Rivals [b, w, b, a] w 1 [c, b, w, a, c] 2 [c, b, c, a, w] 4 :=
    ⟨honly, rfl, by decide, by decide, by decide⟩
  obtain ⟨-, -, -, hless, -⟩ := agreement_lt_agreement_iff hrivals
  exact ⟨hrivals, hless.mpr (by decide)⟩

/-- A word twice; behind the first a word of the selection stands in its own place, behind the
second ahead of it. -/
def movedWord : Text :=
  "x c d w e f g x w d c h j k".toList

/-- A word in its own place does not always count more than elsewhere: ahead of it it counts more,
and the wrong one of two candidates is taken. -/
theorem agreement_prefers_earlier :
    let s : Selection := ⟨[], "x".toList, "u v w".toList⟩
    let d := Document.ofText movedWord
    let selected := wordsAfter s.after
    let near := wordsAfter (Selection.textAfter d ⟨0, 1⟩)
    let near' := wordsAfter (Selection.textAfter d ⟨14, 15⟩)
    Rivals selected "w".toList 2 near 2 near' 0 ∧
      ((2 : Int) - 2).natAbs < ((0 : Int) - 2).natAbs ∧
      ¬ agreement selected near' < agreement selected near ∧
      Occurrence.all s.target.words d.text = [⟨0, 1⟩, ⟨14, 15⟩] ∧
      s.locate? d = some ⟨14, 1⟩ := by
  intro s d selected near near'
  have hselected : selected = ["u".toList, "v".toList, "w".toList] := by decide +kernel
  have hnear : near = ["c", "d", "w", "e", "f", "g"].map String.toList := by decide +kernel
  have hnear' : near' = ["w", "d", "c", "h", "j", "k"].map String.toList := by decide +kernel
  have honly : ∀ j, (["u".toList, "v".toList] ++ "w".toList :: [])[j]? = some "w".toList ↔ j = 2 :=
    only_of_append (by decide) (by decide)
  rw [hselected, hnear, hnear']
  exact ⟨⟨honly, rfl, by decide, by decide, by decide⟩, by decide, by decide, by decide +kernel,
    by decide +kernel⟩

end Context

end Wikitext
