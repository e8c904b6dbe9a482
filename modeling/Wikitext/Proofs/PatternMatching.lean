import Mathlib.Data.List.Basic
import Wikitext.Proofs.Occurrences

/-! Patterns that may match in several ways, and which way they prefer. The tables of the search
hold at each place the length that the pattern of the words prefers there; so the search finds the
leftmost match, then the leftmost behind it, and so on. -/

namespace Wikitext

/-- Of two alternatives the first is preferred, of repetitions those with more turns. -/
inductive Pattern where
  | char (keep : Char → Bool)
  | empty
  | seq (first next : Pattern)
  | alt (preferred other : Pattern)
  | plus (turn : Pattern)

namespace Pattern

/-- The lengths of one turn or more, those with another turn before those without. -/
def turns (turn : Text → List Nat) (t : Text) : List Nat :=
  (turn t).flatMap fun n =>
    if (t.drop n).length < t.length then (turns turn (t.drop n)).map (n + ·) ++ [n] else [n]
  termination_by t.length
  decreasing_by assumption

theorem turns_eq (turn : Text → List Nat) (t : Text) : turns turn t =
    (turn t).flatMap fun n =>
      if (t.drop n).length < t.length then (turns turn (t.drop n)).map (n + ·) ++ [n] else [n] := by
  rw [turns]

/-- The lengths of all that a pattern matches where a text begins, the preferred ones first. -/
def lengths : Pattern → Text → List Nat
  | char keep, t => if t.head?.any keep then [1] else []
  | empty, _ => [0]
  | seq p q, t => (p.lengths t).flatMap fun n => (q.lengths (t.drop n)).map (n + ·)
  | alt p q, t => p.lengths t ++ q.lengths t
  | plus p, t => turns p.lengths t

def star (p : Pattern) : Pattern :=
  alt (plus p) empty

def literal (w : Text) : Pattern :=
  w.foldr (fun c p => seq (char (· = c)) p) empty

variable {p q : Pattern} {keep : Char → Bool} {t : Text} {c : Char}

theorem le_length_of_mem_turns {turn : Text → List Nat}
    (hturn : ∀ t, ∀ n ∈ turn t, n ≤ t.length) (t : Text) : ∀ n ∈ turns turn t, n ≤ t.length := by
  generalize hk : t.length = k
  induction k using Nat.strongRecOn generalizing t with
  | ind k ih =>
    intro n hn
    rw [turns_eq] at hn
    obtain ⟨m, hm, hn⟩ := List.mem_flatMap.mp hn
    have hle := hturn t m hm
    split at hn
    · rename_i hlt
      rcases List.mem_append.mp hn with hn | hn
      · obtain ⟨j, hj, rfl⟩ := List.mem_map.mp hn
        have hrest := ih _ (hk ▸ hlt) (t.drop m) rfl j hj
        rw [List.length_drop] at hrest
        omega
      · obtain rfl : n = m := by simpa using hn
        omega
    · obtain rfl : n = m := by simpa using hn
      omega

theorem le_length_of_mem_lengths {n : Nat} (h : n ∈ p.lengths t) : n ≤ t.length := by
  induction p generalizing t n with
  | char keep =>
    rw [lengths] at h
    split at h
    · rename_i hkeep
      cases t with
      | nil => cases hkeep
      | cons c t =>
        obtain rfl : n = 1 := by simpa using h
        exact Nat.le_add_left 1 _
    · cases h
  | empty =>
    obtain rfl : n = 0 := by simpa [lengths] using h
    exact Nat.zero_le _
  | seq p q hp hq =>
    obtain ⟨m, hm, h⟩ := List.mem_flatMap.mp h
    obtain ⟨j, hj, rfl⟩ := List.mem_map.mp h
    have hfirst := hp hm
    have hnext := hq hj
    rw [List.length_drop] at hnext
    omega
  | alt p q hp hq =>
    rcases List.mem_append.mp h with h | h
    · exact hp h
    · exact hq h
  | plus p hp => exact le_length_of_mem_turns (fun _ _ hn => hp hn) t n h

theorem lengths_char (c : Char) (t : Text) :
    (char (· = c)).lengths t = if t.head? = some c then [1] else [] := by
  cases t <;> simp [lengths]

theorem lengths_seq : (seq p q).lengths t =
    (p.lengths t).flatMap fun n => (q.lengths (t.drop n)).map (n + ·) :=
  rfl

theorem lengths_alt : (alt p q).lengths t = p.lengths t ++ q.lengths t := rfl

theorem lengths_seq_of_singleton {n : Nat} (h : p.lengths t = [n]) :
    (seq p q).lengths t = (q.lengths (t.drop n)).map (n + ·) := by
  rw [lengths_seq, h, List.flatMap_singleton]

theorem lengths_seq_of_nil (h : p.lengths t = []) : (seq p q).lengths t = [] := by
  rw [lengths_seq, h, List.flatMap_nil]

theorem lengths_literal (w t : Text) :
    (literal w).lengths t = if w.isPrefixOf t then [w.length] else [] := by
  induction w generalizing t with
  | nil => rfl
  | cons a w ih =>
    cases t with
    | nil => rfl
    | cons c r =>
      by_cases hc : c = a
      · subst hc
        have hchar : (char (· = c)).lengths (c :: r) = [1] := by simp [lengths]
        have htail := lengths_seq_of_singleton (q := literal w) hchar
        rw [List.drop_one, List.tail_cons, ih] at htail
        refine htail.trans ?_
        by_cases hw : w <+: r
        · simp [hw, Nat.add_comm]
        · simp [hw]
      · have hchar : (char (· = a)).lengths (c :: r) = [] := by simp [lengths, hc]
        refine (lengths_seq_of_nil hchar).trans ?_
        simp [Ne.symm hc]

theorem lengths_seq_literal (w : Text) : (seq (literal w) q).lengths t =
    if w.isPrefixOf t then (q.lengths (t.drop w.length)).map (w.length + ·) else [] := by
  have hw := lengths_literal w t
  by_cases h : w.isPrefixOf t = true
  · rw [if_pos h] at hw ⊢
    exact lengths_seq_of_singleton hw
  · rw [if_neg h] at hw ⊢
    exact lengths_seq_of_nil hw

/-- A repetition and what follows it: one turn, and then more turns or what follows. -/
theorem lengths_seq_plus (hp : ∀ n ∈ p.lengths (c :: t), 0 < n) :
    (seq (plus p) q).lengths (c :: t) = (p.lengths (c :: t)).flatMap fun n =>
      ((alt (seq (plus p) q) q).lengths ((c :: t).drop n)).map (n + ·) := by
  rw [lengths_seq, lengths, turns_eq, List.flatMap_assoc]
  refine List.flatMap_congr fun n hn => ?_
  have hlt : ((c :: t).drop n).length < (c :: t).length := by
    have hpos := hp n hn
    rw [List.length_drop, List.length_cons]
    omega
  rw [if_pos hlt, List.flatMap_append, List.flatMap_singleton, lengths_alt, List.map_append,
    lengths_seq, List.map_flatMap, List.flatMap_map]
  simp only [List.drop_drop, List.map_map, Function.comp_def, Nat.add_assoc, lengths]

theorem lengths_seq_plus_cons (hc : keep c = true) : (seq (plus (char keep)) q).lengths (c :: t) =
    ((seq (star (char keep)) q).lengths t).map (1 + ·) := by
  have hchar : (char keep).lengths (c :: t) = [1] := by simp [lengths, hc]
  have hplus : (plus (char keep)).lengths (c :: t) =
      ((star (char keep)).lengths t).map (1 + ·) := by
    rw [lengths, turns_eq, hchar, List.flatMap_singleton, if_pos (by simp), star, lengths_alt,
      List.map_append]
    rfl
  rw [lengths_seq, lengths_seq, hplus, List.flatMap_map, List.map_flatMap]
  refine List.flatMap_congr fun n _ => ?_
  rw [List.map_map, Nat.add_comm 1 n, List.drop_succ_cons]
  exact List.map_congr_left fun m _ => by rw [Function.comp_apply, Nat.add_comm n 1, Nat.add_assoc]

theorem lengths_seq_plus_of_not (h : ∀ c ∈ t.head?, keep c = false) :
    (seq (plus (char keep)) q).lengths t = [] := by
  have hchar : (char keep).lengths t = [] := by
    cases t with
    | nil => rfl
    | cons c t => simp [lengths, h c rfl]
  apply lengths_seq_of_nil
  rw [lengths, turns_eq, hchar, List.flatMap_nil]

theorem lengths_seq_star_eq :
    (seq (star p) q).lengths t = (seq (plus p) q).lengths t ++ q.lengths t := by
  rw [lengths_seq, star, lengths_alt, List.flatMap_append]
  simp [lengths]

/-- As many characters of a kind as there are, when what follows them cannot begin with one. -/
theorem lengths_seq_star (hq : ∀ c t, keep c = true → q.lengths (c :: t) = []) (t : Text) :
    (seq (star (char keep)) q).lengths t =
      (q.lengths (t.drop (t.takeWhile keep).length)).map ((t.takeWhile keep).length + ·) := by
  rw [lengths_seq_star_eq]
  induction t with
  | nil => rw [lengths_seq_plus_of_not (by simp)]; simp
  | cons c t ih =>
    by_cases hc : keep c = true
    · rw [lengths_seq_plus_cons hc, lengths_seq_star_eq, ih, hq c t hc, List.append_nil,
        List.takeWhile_cons_of_pos hc, List.length_cons, List.drop_succ_cons, List.map_map]
      exact List.map_congr_left fun n _ => by rw [Function.comp_apply]; omega
    · rw [lengths_seq_plus_of_not (by simpa using hc), List.takeWhile_cons_of_neg hc]
      simp

theorem lengths_seq_plus_char (hq : ∀ c t, keep c = true → q.lengths (c :: t) = []) (t : Text) :
    (seq (plus (char keep)) q).lengths t = if t.takeWhile keep = [] then [] else
      (q.lengths (t.drop (t.takeWhile keep).length)).map ((t.takeWhile keep).length + ·) := by
  cases t with
  | nil => exact lengths_seq_plus_of_not (by simp)
  | cons c t =>
    by_cases hc : keep c = true
    · have hstar := lengths_seq_star hq (c :: t)
      rw [lengths_seq_star_eq, hq c t hc, List.append_nil] at hstar
      rw [hstar, if_neg (by simp [hc])]
    · rw [lengths_seq_plus_of_not (by simpa using hc), if_pos (List.takeWhile_cons_of_neg hc)]

end Pattern

namespace Gap

open Pattern

def targetPattern : Pattern :=
  seq (literal ['[', '[']) (seq (plus (char fun c => c ≠ ']' && c ≠ '|')) (char (· = '|')))

def templatePattern : Pattern :=
  seq (literal ['{', '{']) (seq (star (char (· ≠ '}'))) (literal ['}', '}']))

def tagPattern : Pattern :=
  seq (char (· = '<')) (seq (star (char (· ≠ '>'))) (char (· = '>')))

def piecePattern : Pattern :=
  alt (alt targetPattern (alt templatePattern tagPattern)) (char (!isWord ·))

/-- What may stand between two words, markup before single characters. -/
def pattern : Pattern :=
  plus piecePattern

theorem target?_eq_none {t : Text} (h : ¬ ['[', '['] <+: t) : target? t = none := by
  unfold target?
  split
  · exact absurd ⟨_, rfl⟩ h
  · rfl

theorem template?_eq_none {t : Text} (h : ¬ ['{', '{'] <+: t) : template? t = none := by
  unfold template?
  split
  · exact absurd ⟨_, rfl⟩ h
  · rfl

theorem tag?_eq_none {t : Text} (h : ¬ ['<'] <+: t) : tag? t = none := by
  unfold tag?
  split
  · exact absurd ⟨_, rfl⟩ h
  · rfl

theorem lengths_targetPattern (t : Text) : targetPattern.lengths t = (target? t).toList := by
  rw [targetPattern, lengths_seq_literal]
  by_cases hp : ['[', '['] <+: t
  · obtain ⟨r, rfl⟩ := hp
    obtain ⟨u, v, rfl, htake, hdrop, -, -⟩ := exists_inside (fun c => c ≠ ']' && c ≠ '|') r
    have hstop : ∀ c t, (c ≠ ']' && c ≠ '|') = true →
        (char (· = '|')).lengths (c :: t) = [] := by
      intro c t hc
      rw [lengths_char, if_neg (by simp_all)]
    rw [if_pos (by simp), List.drop_left, lengths_seq_plus_char hstop, htake, hdrop, lengths_char]
    simp only [List.cons_append, List.nil_append, target?, htake, hdrop]
    by_cases hu : u = []
    · simp [hu]
    · by_cases hv : v.head? = some '|'
      · simp [hu, hv]
        omega
      · simp [hu, hv]
  · rw [if_neg (by rwa [List.isPrefixOf_iff_prefix]), target?_eq_none hp]
    rfl

theorem lengths_templatePattern (t : Text) :
    templatePattern.lengths t = (template? t).toList := by
  rw [templatePattern, lengths_seq_literal]
  by_cases hp : ['{', '{'] <+: t
  · obtain ⟨r, rfl⟩ := hp
    obtain ⟨u, v, rfl, htake, hdrop, -, -⟩ := exists_inside (· ≠ '}') r
    have hstop : ∀ c t, decide (c ≠ '}') = true → (literal ['}', '}']).lengths (c :: t) = [] := by
      intro c t hc
      rw [lengths_literal, if_neg]
      rw [List.isPrefixOf_iff_prefix, List.cons_prefix_cons]
      exact fun hp => of_decide_eq_true hc hp.1.symm
    rw [if_pos (by simp), List.drop_left, lengths_seq_star hstop, htake, hdrop, lengths_literal]
    simp only [List.cons_append, List.nil_append, template?, htake, hdrop]
    by_cases hv : ['}', '}'].isPrefixOf v = true
    · simp [hv]
      omega
    · simp [hv]
  · rw [if_neg (by rwa [List.isPrefixOf_iff_prefix]), template?_eq_none hp]
    rfl

theorem lengths_tagPattern (t : Text) : tagPattern.lengths t = (tag? t).toList := by
  by_cases hp : ['<'] <+: t
  · obtain ⟨r, rfl⟩ := hp
    obtain ⟨u, v, rfl, htake, hdrop, -, hv⟩ := exists_inside (· ≠ '>') r
    have hopen : (char (· = '<')).lengths (['<'] ++ (u ++ v)) = [1] := rfl
    have hstop : ∀ c t, decide (c ≠ '>') = true → (char (· = '>')).lengths (c :: t) = [] := by
      intro c t hc
      rw [lengths_char, if_neg (by simp_all)]
    rw [tagPattern, lengths_seq_of_singleton hopen, List.drop_one, List.cons_append,
      List.tail_cons, List.nil_append, lengths_seq_star hstop, htake, hdrop, lengths_char]
    simp only [tag?, htake]
    cases v with
    | nil => simp
    | cons c v =>
      obtain rfl : c = '>' := by simpa using hv c rfl
      simp
      omega
  · have hopen : (char (· = '<')).lengths t = [] := by
      rw [lengths_char, if_neg]
      intro hhead
      obtain ⟨r, rfl⟩ := List.head?_eq_some_iff.mp hhead
      exact hp ⟨r, rfl⟩
    rw [tagPattern, lengths_seq_of_nil hopen, tag?_eq_none hp]
    rfl

theorem lengths_piecePattern (c : Char) (t : Text) : piecePattern.lengths (c :: t) =
    (markup? (c :: t)).toList ++ if isWord c = false then [1] else [] := by
  have hmarkup : (markup? (c :: t)).toList =
      (target? (c :: t)).toList ++ ((template? (c :: t)).toList ++ (tag? (c :: t)).toList) := by
    -- No two of them begin with the same character.
    have htarget : c ≠ '[' → target? (c :: t) = none := fun hc =>
      target?_eq_none (by simp [Ne.symm hc])
    have htemplate : c ≠ '{' → template? (c :: t) = none := fun hc =>
      template?_eq_none (by simp [Ne.symm hc])
    have htag : c ≠ '<' → tag? (c :: t) = none := fun hc => tag?_eq_none (by simp [Ne.symm hc])
    by_cases hc : c = '['
    · simp [markup?, htemplate (by simp [hc]), htag (by simp [hc])]
    · by_cases hc' : c = '{'
      · simp [markup?, htarget hc, htag (by simp [hc'])]
      · simp [markup?, htarget hc, htemplate hc']
  rw [piecePattern, lengths_alt, lengths_alt, lengths_alt, lengths_targetPattern,
    lengths_templatePattern, lengths_tagPattern, hmarkup]
  simp [lengths]

theorem pos_of_mem_lengths_piecePattern {c : Char} {t : Text} {n : Nat}
    (h : n ∈ piecePattern.lengths (c :: t)) : 0 < n := by
  rw [lengths_piecePattern, List.mem_append, Option.mem_toList] at h
  rcases h with h | h
  · obtain ⟨p, hp, rfl, -⟩ := exists_of_markup? h
    exact List.length_pos_iff.mpr hp.ne_nil
  · split at h
    · simp_all
    · cases h

end Gap

namespace Occurrence

open Pattern

/-- Some words with a gap between each two. No words match nowhere. -/
def pattern : List Text → Pattern
  | [] => char fun _ => false
  | [w] => literal w
  | w :: v :: ws => seq (literal w) (seq Gap.pattern (pattern (v :: ws)))

/-- The entries are the lengths that a pattern prefers at the places of `t`, one after the other. -/
def Tabulates (p : Pattern) (t : Text) (entries : List (Option Nat)) : Prop :=
  ∀ i, entries[i]?.join = (p.lengths (t.drop i)).head?

section

variable {p q : Pattern} {t r : Text} {c : Char} {entries later : List (Option Nat)}

theorem Tabulates.cons {o : Option Nat} (ho : o = (p.lengths (c :: r)).head?)
    (h : Tabulates p r entries) : Tabulates p (c :: r) (o :: entries)
  | 0 => ho
  | i + 1 => h i

theorem Tabulates.drop (h : Tabulates p t entries) (k : Nat) :
    Tabulates p (t.drop k) (entries.drop k) := by
  intro i
  rw [List.getElem?_drop, List.drop_drop]
  exact h (k + i)

theorem gapAt_eq_head? (h : Tabulates (alt (seq Gap.pattern q) q) r later) :
    gapAt (Gap.piecesAt (c :: r)) later = ((seq Gap.pattern q).lengths (c :: r)).head? := by
  have hbehind {n : Nat} (hn : 0 < n) : later[n - 1]?.join =
      ((alt (seq Gap.pattern q) q).lengths ((c :: r).drop n)).head? := by
    obtain ⟨k, rfl⟩ := Nat.exists_eq_succ_of_ne_zero (Nat.ne_of_gt hn)
    exact h k
  rw [Gap.pattern, lengths_seq_plus fun n => Gap.pos_of_mem_lengths_piecePattern, ← Gap.pattern,
    gapAt_eq_or, Gap.lengths_piecePattern, List.flatMap_append, List.head?_append]
  congr 1
  · cases hm : Gap.markup? (c :: r) with
    | none => rfl
    | some n =>
      obtain ⟨p, hp, rfl, -⟩ := Gap.exists_of_markup? hm
      rw [Option.bind_some, Option.toList_some, List.flatMap_singleton, List.head?_map,
        hbehind (List.length_pos_iff.mpr hp.ne_nil)]
  · split
    · rw [List.flatMap_singleton, List.head?_map]
      exact congrArg _ (hbehind Nat.one_pos)
    · rfl

theorem lengths_eq_nil_of_tabulates (h : Tabulates q t []) (i : Nat) :
    q.lengths (t.drop i) = [] :=
  List.head?_eq_none_iff.mp (h i).symm

theorem tabulates_nil (h : ∀ i, q.lengths (t.drop i) = []) :
    Tabulates (seq p q) t [] ∧ Tabulates (alt (seq p q) q) t [] := by
  have hseq (i : Nat) : (seq p q).lengths (t.drop i) = [] := by
    rw [lengths_seq, List.flatMap_eq_nil_iff]
    intro n _
    rw [List.drop_drop, h, List.map_nil]
  refine ⟨fun i => ?_, fun i => ?_⟩
  · rw [hseq]
    rfl
  · rw [lengths_alt, hseq, h]
    rfl

theorem tabulates_foldr_gapStep (hq : q.lengths [] = []) {next : List (Option Nat)}
    (hn : Tabulates q t next) :
    Tabulates (seq Gap.pattern q) t
        (((t.mapSuffixes Gap.piecesAt).zip next).foldr gapStep ([], [])).1 ∧
      Tabulates (alt (seq Gap.pattern q) q) t
        (((t.mapSuffixes Gap.piecesAt).zip next).foldr gapStep ([], [])).2 := by
  induction t generalizing next with
  | nil => exact tabulates_nil fun i => by rw [List.drop_nil, hq]
  | cons c r ih =>
    cases next with
    | nil =>
      rw [List.zip_nil_right]
      exact tabulates_nil (lengths_eq_nil_of_tabulates hn)
    | cons n next =>
      obtain ⟨hgaps, hlater⟩ := ih (show Tabulates q r next from fun i => hn (i + 1))
      have hgap := gapAt_eq_head? (c := c) hlater
      have hhere : n = (q.lengths (c :: r)).head? := hn 0
      rw [Text.mapSuffixes_cons, List.zip_cons_cons, List.foldr_cons]
      refine ⟨hgaps.cons hgap, hlater.cons ?_⟩
      rw [lengths_alt, List.head?_append, ← hgap, ← hhere]
      exact Option.orElse_eq_or

theorem pos_of_mem_lengths_pattern {ws : List Text} (hws : ∀ w ∈ ws, w ≠ []) {n : Nat}
    (h : n ∈ (pattern ws).lengths t) : 0 < n := by
  match ws, h with
  | [], h => simp [pattern, lengths] at h
  | [w], h =>
    rw [pattern, lengths_literal] at h
    split at h
    · obtain rfl : n = w.length := by simpa using h
      exact List.length_pos_iff.mpr (hws w List.mem_cons_self)
    · cases h
  | w :: v :: ws, h =>
    rw [pattern, lengths_seq_literal] at h
    split at h
    · obtain ⟨m, -, rfl⟩ := List.mem_map.mp h
      exact Nat.lt_of_lt_of_le (List.length_pos_iff.mpr (hws w List.mem_cons_self))
        (Nat.le_add_right _ _)
    · cases h

theorem lengths_pattern_nil {ws : List Text} (hws : ∀ w ∈ ws, w ≠ []) :
    (pattern ws).lengths [] = [] := by
  refine List.eq_nil_iff_forall_not_mem.mpr fun n hn => ?_
  have hle := le_length_of_mem_lengths hn
  have hpos := pos_of_mem_lengths_pattern hws hn
  rw [List.length_nil] at hle
  omega

theorem tabulates_lengthsAt (t : Text) {ws : List Text} (hws : ∀ w ∈ ws, w ≠ []) :
    Tabulates (pattern ws) t (lengthsAt t (t.mapSuffixes Gap.piecesAt) ws) := by
  induction ws with
  | nil =>
    intro i
    simp [lengthsAt, pattern, lengths]
  | cons w ws ih =>
    have hw : w ≠ [] := hws w List.mem_cons_self
    cases ws with
    | nil =>
      intro i
      rw [lengthsAt, pattern, Text.getElem?_mapSuffixes, lengths_literal]
      by_cases hi : i < t.length
      · rw [if_pos hi]
        split <;> rfl
      · rw [if_neg hi, List.drop_of_length_le (Nat.le_of_not_lt hi), if_neg (by simp [hw])]
        rfl
    | cons v ws =>
      have hws' : ∀ w ∈ v :: ws, w ≠ [] := fun w hw => hws w (List.mem_cons_of_mem _ hw)
      have hgaps : Tabulates (seq Gap.pattern (pattern (v :: ws))) t
          (gapThen (t.mapSuffixes Gap.piecesAt)
            (lengthsAt t (t.mapSuffixes Gap.piecesAt) (v :: ws))) :=
        (tabulates_foldr_gapStep (lengths_pattern_nil hws') (ih hws')).1
      intro i
      rw [lengthsAt, getElem?_join_zipWith hw, hgaps, pattern, lengths_seq_literal, List.drop_drop,
        Nat.add_comm i]
      split
      · rw [List.head?_map]
      · rfl

end

/-- `Finds p byte t rs`: in the text `t`, which begins at a byte, the leftmost match of a pattern,
of those there the one that is preferred, then the leftmost behind it, and so on, are `rs`. -/
inductive Finds (p : Pattern) : Nat → Text → List ByteRange → Prop
  | done {byte : Nat} {t : Text} (h : ∀ u v, t = u ++ v → p.lengths v = []) : Finds p byte t []
  | next {byte : Nat} {u m t : Text} {rs : List ByteRange}
      (hu : ∀ v w, u = v ++ w → w ≠ [] → p.lengths (w ++ (m ++ t)) = [])
      (hm : (p.lengths (m ++ t)).head? = some m.length)
      (h : Finds p (byte + u.byteLength + m.byteLength) t rs) :
      Finds p byte (u ++ (m ++ t))
        (⟨byte + u.byteLength, byte + u.byteLength + m.byteLength⟩ :: rs)

namespace Finds

variable {p : Pattern} {byte : Nat} {t : Text} {rs rs' : List ByteRange}

/-- A match does not lie in what another reading skips. -/
theorem exists_of_skipped {u m t v s : Text} {n : Nat} (h : u ++ (m ++ t) = v ++ s)
    (hu : ∀ x y, u = x ++ y → y ≠ [] → p.lengths (y ++ (m ++ t)) = [])
    (hs : (p.lengths s).head? = some n) : ∃ k, v = u ++ k := by
  rcases List.append_eq_append_iff.mp h with ⟨k, hk, -⟩ | ⟨k, hk, rfl⟩
  · exact ⟨k, hk⟩
  · by_cases hne : k = []
    · exact ⟨[], by rw [hk, hne, List.append_nil, List.append_nil]⟩
    · rw [hu v k hk hne] at hs
      cases hs

theorem eq (h : Finds p byte t rs) (h' : Finds p byte t rs') : rs = rs' := by
  induction h generalizing rs' with
  | done hnone =>
    cases h' with
    | done => rfl
    | next _ hm =>
      rw [hnone _ _ rfl] at hm
      cases hm
  | @next byte u m t rs hu hm _ ih =>
    generalize ht : u ++ (m ++ t) = s at h'
    cases h' with
    | done hnone =>
      rw [hnone u _ ht.symm] at hm
      cases hm
    | @next _ u' m' t' rs' hu' hm' h' =>
      obtain ⟨k, hk⟩ := exists_of_skipped ht hu hm'
      obtain ⟨k', rfl⟩ := exists_of_skipped ht.symm hu' hm
      have hlen := congrArg List.length hk
      rw [List.length_append, List.length_append] at hlen
      obtain rfl : k' = [] := List.eq_nil_of_length_eq_zero (by omega)
      rw [List.append_nil] at ih ht ⊢
      rw [List.append_cancel_left_eq] at ht
      rw [ht, hm', Option.some.injEq] at hm
      obtain ⟨rfl, rfl⟩ := List.append_inj ht hm.symm
      rw [ih h']

theorem start_le (h : Finds p byte t rs) : ∀ r ∈ rs, byte ≤ r.start := by
  induction h with
  | done => simp
  | next _ _ _ ih =>
    intro r hr
    rcases List.mem_cons.mp hr with rfl | hr
    · exact Nat.le_add_right _ _
    · have hle := ih r hr
      omega

theorem pairwise (h : Finds p byte t rs) : rs.Pairwise (·.start ≤ ·.start) := by
  induction h with
  | done => exact .nil
  | next _ _ h ih =>
    refine .cons (fun r hr => ?_) ih
    have hle := h.start_le r hr
    simp only
    omega

end Finds

section

variable {p : Pattern} {t : Text} {skipped : List (Option Nat)}

theorem Tabulates.lengths_eq_nil {found : List (Option Nat)} (h : Tabulates p t (skipped ++ found))
    (hs : ∀ o ∈ skipped, o = none) {i : Nat} (hi : i < skipped.length) :
    p.lengths (t.drop i) = [] := by
  have hentry := h i
  rw [List.getElem?_append_left hi, List.getElem?_eq_getElem hi, hs _ (List.getElem_mem hi)]
    at hentry
  exact List.head?_eq_none_iff.mp hentry.symm

theorem Tabulates.lengths_eq_nil_of_all (h : Tabulates p t (skipped ++ []))
    (hs : ∀ o ∈ skipped, o = none) {u v : Text} (huv : t = u ++ v) : p.lengths v = [] := by
  have hv : v = t.drop u.length := by rw [huv, List.drop_left]
  rw [hv]
  by_cases hi : u.length < skipped.length
  · exact h.lengths_eq_nil hs hi
  · have hbehind := h.drop skipped.length
    rw [List.drop_left] at hbehind
    have hrest := lengths_eq_nil_of_tabulates hbehind (u.length - skipped.length)
    rwa [List.drop_drop, Nat.add_sub_cancel' (Nat.le_of_not_lt hi)] at hrest

theorem Tabulates.exists_match {n : Nat} {more : List (Option Nat)}
    (h : Tabulates p t (some n :: more)) (hp : ∀ t, ∀ n ∈ p.lengths t, 0 < n) :
    ∃ m r, t = m ++ r ∧ m.length = n ∧ (p.lengths (m ++ r)).head? = some m.length ∧
      Tabulates p r (more.drop (n - 1)) := by
  have hn : (p.lengths t).head? = some n := (h 0).symm
  have hmem := List.mem_of_head? hn
  have hm : (t.take n).length = n := List.length_take_of_le (le_length_of_mem_lengths hmem)
  obtain ⟨k, rfl⟩ := Nat.exists_eq_succ_of_ne_zero (Nat.ne_of_gt (hp t n hmem))
  refine ⟨t.take (k + 1), t.drop (k + 1), (List.take_append_drop _ _).symm, hm, ?_, ?_⟩
  · rw [List.take_append_drop, hm, hn]
  · exact h.drop (k + 1)

end

/-- One step of the search: it skips all places at which nothing begins. -/
theorem next?_cases {p : Pattern} (hp : ∀ t, ∀ n ∈ p.lengths t, 0 < n) (byte : Nat) {t : Text}
    {entries : List (Option Nat)} (ht : Tabulates p t entries) :
    next? (byte, t, entries) = none ∧ (∀ u v, t = u ++ v → p.lengths v = []) ∨
    ∃ u m r entries', t = u ++ (m ++ r) ∧
      (∀ v w, u = v ++ w → w ≠ [] → p.lengths (w ++ (m ++ r)) = []) ∧
      (p.lengths (m ++ r)).head? = some m.length ∧ Tabulates p r entries' ∧
      next? (byte, t, entries) =
        some (⟨byte + u.byteLength, byte + u.byteLength + m.byteLength⟩,
          (byte + u.byteLength + m.byteLength, r, entries')) := by
  have hsplit : entries.takeWhile (·.isNone) ++ entries.dropWhile (·.isNone) = entries :=
    List.takeWhile_append_dropWhile
  have hskipped : ∀ o ∈ entries.takeWhile (·.isNone), o = none := by
    intro o ho
    simpa using List.mem_takeWhile_imp ho
  have hhead := List.head?_dropWhile_not (·.isNone) entries
  simp only [next?]
  generalize entries.takeWhile (·.isNone) = skipped at hsplit hskipped ⊢
  generalize entries.dropWhile (·.isNone) = found at hsplit hhead ⊢
  subst hsplit
  cases found with
  | nil => exact .inl ⟨rfl, fun u v huv => ht.lengths_eq_nil_of_all hskipped huv⟩
  | cons o more =>
    obtain ⟨n, rfl⟩ := Option.isSome_iff_exists.mp (by simpa using hhead : o.isSome = true)
    have hbehind := ht.drop skipped.length
    rw [List.drop_left] at hbehind
    obtain ⟨m, r, hmr, rfl, hm, hr⟩ := hbehind.exists_match hp
    have happ : t.take skipped.length ++ (m ++ r) = t := by
      rw [← hmr, List.take_append_drop]
    refine .inr ⟨t.take skipped.length, m, r, more.drop (m.length - 1), happ.symm,
      fun v w hvw hw => ?_, hm, hr, ?_⟩
    · have hlen := congrArg List.length hvw
      have hpos := List.length_pos_iff.mpr hw
      rw [List.length_take, List.length_append] at hlen
      have hnil := ht.lengths_eq_nil hskipped (i := v.length) (by omega)
      rwa [← happ, hvw, List.append_assoc, List.drop_left] at hnil
    · simp only [← List.drop_drop, hmr, List.take_left, List.drop_left]

theorem finds_unfold {p : Pattern} (hp : ∀ t, ∀ n ∈ p.lengths t, 0 < n) {byte : Nat} {t : Text}
    {entries : List (Option Nat)} (ht : Tabulates p t entries) :
    Finds p byte t (unfold (·.2.2.length) next? next?_shrinks (byte, t, entries)) := by
  generalize hn : entries.length = n
  induction n using Nat.strongRecOn generalizing byte t entries with
  | ind n ih =>
    rw [unfold_eq]
    rcases next?_cases hp byte ht with
      ⟨hnext, hnone⟩ | ⟨u, m, r, entries', rfl, hu, hm, hr, hnext⟩
    · rw [hnext]
      exact .done hnone
    · have hlt : entries'.length < n := hn ▸ next?_shrinks _ _ _ hnext
      rw [hnext]
      exact .next hu hm (ih _ hlt hr rfl)

/-- The search finds the leftmost matches of the words, one behind the other. -/
theorem finds_all {words : List Text} (hw : ∀ w ∈ words, w ≠ []) (t : Text) :
    Finds (pattern words) 0 t (all words t) :=
  finds_unfold (fun _ _ => pos_of_mem_lengths_pattern hw) (tabulates_lengthsAt t hw)

end Occurrence

end Wikitext
