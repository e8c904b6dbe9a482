import Mathlib.Data.List.TakeWhile
import Wikitext.Proofs.Segmentation
import Wikitext.Selection.Occurrence

/-! What may stand between two words as a grammar, and the tables of the search against it: a table
has an entry at each place of the text at which a match begins, and the length of one. So what is
found are the words of the target, in order, with gaps between them. -/

namespace Wikitext

namespace Gap

/-- One piece of a gap. -/
inductive Piece : Text → Prop
  | target {u : Text} (hne : u ≠ []) (hu : ∀ c ∈ u, c ≠ ']' ∧ c ≠ '|') :
      Piece ('[' :: '[' :: (u ++ ['|']))
  | template {u : Text} (hu : ∀ c ∈ u, c ≠ '}') : Piece ('{' :: '{' :: (u ++ ['}', '}']))
  | tag {u : Text} (hu : ∀ c ∈ u, c ≠ '>') : Piece ('<' :: (u ++ ['>']))
  | single {c : Char} (hc : isWord c = false) : Piece [c]

/-- One piece or more. -/
inductive Filled : Text → Prop
  | last {p : Text} (h : Piece p) : Filled p
  | more {p g : Text} (h : Piece p) (h' : Filled g) : Filled (p ++ g)

theorem Piece.ne_nil {p : Text} (h : Piece p) : p ≠ [] := by
  cases h <;> exact List.cons_ne_nil _ _

theorem exists_inside (p : Char → Bool) (t : Text) : ∃ u v, t = u ++ v ∧ t.takeWhile p = u ∧
    t.drop u.length = v ∧ (∀ c ∈ u, p c = true) ∧ ∀ c ∈ v.head?, p c = false := by
  have ht : t = t.takeWhile p ++ t.dropWhile p := List.takeWhile_append_dropWhile.symm
  have hdrop : (t.takeWhile p ++ t.dropWhile p).drop (t.takeWhile p).length = t.dropWhile p :=
    List.drop_left
  rw [← ht] at hdrop
  refine ⟨_, _, ht, rfl, hdrop, fun c hc => by simpa using List.mem_takeWhile_imp hc,
    fun c hc => ?_⟩
  have hhead := List.head?_dropWhile_not p t
  rw [Option.mem_def.mp hc] at hhead
  simpa using hhead

theorem exists_of_target? {t : Text} {n : Nat} (h : target? t = some n) :
    ∃ p, Piece p ∧ p.length = n ∧ p <+: t := by
  unfold target? at h
  split at h
  · rename_i r
    obtain ⟨u, v, rfl, htake, hdrop, hu, -⟩ := exists_inside (fun c => c ≠ ']' && c ≠ '|') r
    simp only [htake, hdrop] at h
    split at h
    · rename_i hif
      cases h
      simp only [Bool.and_eq_true, decide_eq_true_eq, List.head?_eq_some_iff] at hif
      obtain ⟨hne, w, rfl⟩ := hif
      refine ⟨_, .target hne fun c hc => by simpa using hu c hc, by simp, w, by simp⟩
    · cases h
  · cases h

theorem exists_of_template? {t : Text} {n : Nat} (h : template? t = some n) :
    ∃ p, Piece p ∧ p.length = n ∧ p <+: t := by
  unfold template? at h
  split at h
  · rename_i r
    obtain ⟨u, v, rfl, htake, hdrop, hu, -⟩ := exists_inside (· ≠ '}') r
    simp only [htake, hdrop] at h
    split at h
    · rename_i hif
      cases h
      obtain ⟨w, rfl⟩ := List.isPrefixOf_iff_prefix.mp hif
      exact ⟨_, .template fun c hc => by simpa using hu c hc, by simp, w, by simp⟩
    · cases h
  · cases h

theorem exists_of_tag? {t : Text} {n : Nat} (h : tag? t = some n) :
    ∃ p, Piece p ∧ p.length = n ∧ p <+: t := by
  unfold tag? at h
  split at h
  · rename_i r
    obtain ⟨u, v, rfl, htake, -, hu, hv⟩ := exists_inside (· ≠ '>') r
    simp only [htake] at h
    split at h
    · rename_i hlt
      cases h
      obtain ⟨c, w, rfl⟩ := List.exists_cons_of_ne_nil (l := v) (by rintro rfl; simp at hlt)
      obtain rfl : c = '>' := by simpa using hv c rfl
      exact ⟨_, .tag fun c hc => by simpa using hu c hc, by simp, w, by simp⟩
    · cases h
  · cases h

theorem exists_of_markup? {t : Text} {n : Nat} (h : markup? t = some n) :
    ∃ p, Piece p ∧ p.length = n ∧ p <+: t := by
  simp only [markup?, Option.orElse_eq_orElse, Option.orElse_eq_or, Option.or_eq_some_iff] at h
  rcases h with h | ⟨-, h | ⟨-, h⟩⟩
  · exact exists_of_target? h
  · exact exists_of_template? h
  · exact exists_of_tag? h

theorem takeWhile_append_cons {p : Char → Bool} {u : Text} {c : Char}
    (hu : ∀ a ∈ u, p a = true) (hc : p c = false) (r : Text) :
    (u ++ c :: r).takeWhile p = u := by
  rw [List.takeWhile_append_of_pos hu, List.takeWhile_cons_of_neg (by simp [hc]), List.append_nil]

theorem target?_eq {u : Text} (hne : u ≠ []) (hu : ∀ c ∈ u, c ≠ ']' ∧ c ≠ '|') (r : Text) :
    target? ('[' :: '[' :: (u ++ '|' :: r)) = some (u.length + 3) := by
  have htake := takeWhile_append_cons (p := fun c => c ≠ ']' && c ≠ '|') (c := '|')
    (fun c hc => by simpa using hu c hc) (by decide) r
  simp only [target?, htake, List.drop_left]
  rw [if_pos (by simp [hne])]

theorem template?_eq {u : Text} (hu : ∀ c ∈ u, c ≠ '}') (r : Text) :
    template? ('{' :: '{' :: (u ++ '}' :: '}' :: r)) = some (u.length + 4) := by
  have htake := takeWhile_append_cons (p := (· ≠ '}')) (c := '}')
    (fun c hc => by simpa using hu c hc) (by decide) ('}' :: r)
  simp only [template?, htake, List.drop_left]
  rw [if_pos (by simp)]

theorem tag?_eq {u : Text} (hu : ∀ c ∈ u, c ≠ '>') (r : Text) :
    tag? ('<' :: (u ++ '>' :: r)) = some (u.length + 2) := by
  have htake := takeWhile_append_cons (p := (· ≠ '>')) (c := '>')
    (fun c hc => by simpa using hu c hc) (by decide) r
  simp only [tag?, htake]
  rw [if_pos (by simp)]

/-- The length of a piece is found where it begins, unless it is a single character. -/
theorem Piece.markup?_eq {p : Text} (h : Piece p) (r : Text) :
    markup? (p ++ r) = some p.length ∨ ∃ c, p = [c] ∧ isWord c = false := by
  cases h with
  | @target u hne hu =>
    left
    have htarget := target?_eq hne hu r
    simp [markup?, htarget]
  | @template u hu =>
    left
    have htemplate := template?_eq hu r
    simp [markup?, target?, htemplate]
  | @tag u hu =>
    left
    have htag := tag?_eq hu r
    simp [markup?, target?, template?, htag]
  | single hc => exact .inr ⟨_, rfl, hc⟩

end Gap

theorem Text.getElem?_mapSuffixes {α : Type} (f : Text → α) (t : Text) (i : Nat) :
    (t.mapSuffixes f)[i]? = if i < t.length then some (f (t.drop i)) else none := by
  induction t generalizing i with
  | nil => simp
  | cons c r ih => cases i <;> simp [ih]

namespace Occurrence

/-- Words one after another, with a gap between each two. -/
inductive Matches : List Text → Text → Prop
  | word {w : Text} : Matches [w] w
  | words {w v g s : Text} {ws : List Text} (hg : Gap.Filled g) (h : Matches (v :: ws) s) :
      Matches (w :: v :: ws) (w ++ (g ++ s))

/-- What an entry for the place where `t` begins says of the texts that satisfy `P`: the length of
one of them with which `t` begins, or that it begins with none. -/
def Entry (P : Text → Prop) (t : Text) : Option Nat → Prop
  | some n => ∃ s, P s ∧ s.length = n ∧ s <+: t
  | none => ∀ s, P s → ¬ s <+: t

/-- The entries are those for the places of `t`, one after the other. Where they end, nothing that
satisfies `P` begins any more. -/
def Table (P : Text → Prop) (t : Text) (entries : List (Option Nat)) : Prop :=
  ∀ i, Entry P (t.drop i) entries[i]?.join

section

variable {P Q : Text → Prop} {s t r : Text} {c : Char} {entries : List (Option Nat)}

theorem Entry.exists_of_matched {o : Option Nat} (h : Entry P t o) (hs : P s) (hp : s <+: t) :
    ∃ n, o = some n := by
  cases o with
  | none => exact absurd hp (h s hs)
  | some n => exact ⟨n, rfl⟩

theorem Table.drop (h : Table P t entries) (k : Nat) : Table P (t.drop k) (entries.drop k) := by
  intro i
  rw [List.getElem?_drop, List.drop_drop]
  exact h (k + i)

theorem Table.cons {o : Option Nat} (ho : Entry P (c :: r) o) (h : Table P r entries) :
    Table P (c :: r) (o :: entries)
  | 0 => ho
  | i + 1 => h i

theorem table_nil (hP : ∀ s, P s → s ≠ []) : Table P [] [] := by
  intro i s hs hp
  rw [List.drop_nil] at hp
  exact hP s hs (List.prefix_nil.mp hp)

theorem Table.of_suffix (h : Table Q t []) (hP : ∀ s, P s → ∃ s', Q s' ∧ s' <:+ s) :
    Table P t [] := by
  intro i s hs hp
  obtain ⟨s', hs', a, rfl⟩ := hP s hs
  obtain ⟨b, hb⟩ := hp
  apply h (i + a.length) s' hs'
  rw [← List.drop_drop, ← hb, List.append_assoc, List.drop_left]
  exact List.prefix_append _ _

/-- A gap, and what satisfies `Q` behind it. -/
def Ahead (Q : Text → Prop) (s : Text) : Prop :=
  ∃ g s', Gap.Filled g ∧ Q s' ∧ s = g ++ s'

/-- What satisfies `Q`, at once or behind a gap. -/
def Onward (Q : Text → Prop) (s : Text) : Prop :=
  Q s ∨ Ahead Q s

theorem ahead_iff : Ahead Q s ↔ ∃ p s', Gap.Piece p ∧ Onward Q s' ∧ s = p ++ s' := by
  constructor
  · rintro ⟨g, s', hg, hs, rfl⟩
    cases hg with
    | last hp => exact ⟨_, _, hp, .inl hs, rfl⟩
    | more hp hg => exact ⟨_, _, hp, .inr ⟨_, _, hg, hs, rfl⟩, List.append_assoc _ _ _⟩
  · rintro ⟨p, s', hp, hs | ⟨g, s', hg, hs, rfl⟩, rfl⟩
    · exact ⟨p, s', .last hp, hs, rfl⟩
    · exact ⟨p ++ g, s', .more hp hg, hs, (List.append_assoc _ _ _).symm⟩

theorem Ahead.exists_suffix (h : Ahead Q s) : ∃ s', Q s' ∧ s' <:+ s := by
  obtain ⟨g, s', -, hs, rfl⟩ := h
  exact ⟨s', hs, List.suffix_append _ _⟩

theorem Onward.exists_suffix (h : Onward Q s) : ∃ s', Q s' ∧ s' <:+ s := by
  rcases h with h | h
  · exact ⟨s, h, List.suffix_rfl⟩
  · exact h.exists_suffix

theorem entry_behind {later : List (Option Nat)} (hl : Table (Onward Q) r later) {p v : Text}
    (hp : Gap.Piece p) (hv : p ++ v = c :: r) :
    Entry (Onward Q) v later[p.length - 1]?.join := by
  obtain ⟨a, p, rfl⟩ := List.exists_cons_of_ne_nil hp.ne_nil
  rw [List.cons_append] at hv
  obtain ⟨-, rfl⟩ := List.cons.inj hv
  have hentry := hl p.length
  rwa [List.drop_left] at hentry

theorem exists_ahead {o : Option Nat} {n : Nat} {p v : Text} (hp : Gap.Piece p)
    (ho : Entry (Onward Q) v o) (hn : o.map (p.length + ·) = some n) :
    ∃ s, Ahead Q s ∧ s.length = n ∧ s <+: p ++ v := by
  obtain ⟨m, rfl, rfl⟩ := Option.map_eq_some_iff.mp hn
  obtain ⟨s', hs', rfl, hpre⟩ := ho
  exact ⟨p ++ s', ahead_iff.mpr ⟨p, s', hp, hs', rfl⟩, List.length_append,
    (List.prefix_append_right_inj p).mpr hpre⟩

theorem gapAt_eq_or (t : Text) (later : List (Option Nat)) (c : Char) :
    gapAt (Gap.piecesAt (c :: t)) later =
      ((Gap.markup? (c :: t)).bind fun n => later[n - 1]?.join.map (n + ·)).or
        (if isWord c = false then later[0]?.join.map (1 + ·) else none) := by
  cases hc : isWord c <;>
    simp [gapAt, Gap.piecesAt, hc, List.head?_eq_getElem?]

theorem entry_gapAt {later : List (Option Nat)} (hl : Table (Onward Q) r later) :
    Entry (Ahead Q) (c :: r) (gapAt (Gap.piecesAt (c :: r)) later) := by
  rw [gapAt_eq_or]
  cases h : Option.or _ _ with
  | some n =>
    rcases Option.or_eq_some_iff.mp h with h | ⟨-, h⟩
    · obtain ⟨k, hk, hn⟩ := Option.bind_eq_some_iff.mp h
      obtain ⟨p, hp, rfl, v, hv⟩ := Gap.exists_of_markup? hk
      rw [← hv]
      exact exists_ahead hp (entry_behind hl hp hv) hn
    · split at h
      · rename_i hc
        have hp := Gap.Piece.single hc
        exact exists_ahead hp (entry_behind hl hp rfl) h
      · cases h
  | none =>
    obtain ⟨hmarkup, hsingle⟩ := Option.or_eq_none_iff.mp h
    intro s hs hpre
    obtain ⟨p, s', hp, hs', rfl⟩ := ahead_iff.mp hs
    obtain ⟨w, hw⟩ := hpre
    rw [List.append_assoc] at hw
    obtain ⟨m, hm⟩ := (entry_behind hl hp hw).exists_of_matched hs' (List.prefix_append _ _)
    rcases hp.markup?_eq (s' ++ w) with hk | ⟨a, rfl, ha⟩
    · rw [← hw, hk, Option.bind_some, hm] at hmarkup
      cases hmarkup
    · obtain ⟨rfl, -⟩ := List.cons.inj hw
      rw [if_pos ha] at hsingle
      simp only [List.length_singleton, Nat.sub_self] at hm
      rw [hm] at hsingle
      cases hsingle

theorem entry_onward {o o' : Option Nat} (ho : Entry (Ahead Q) t o) (ho' : Entry Q t o') :
    Entry (Onward Q) t (o <|> o') := by
  cases o with
  | some n =>
    obtain ⟨s, hs, hn, hp⟩ := ho
    exact ⟨s, .inr hs, hn, hp⟩
  | none =>
    cases o' with
    | some n =>
      obtain ⟨s, hs, hn, hp⟩ := ho'
      exact ⟨s, .inl hs, hn, hp⟩
    | none =>
      rintro s (hs | hs)
      · exact ho' s hs
      · exact ho s hs

/-- One place of the text added in front of the tables of what is behind a gap, and of what is
behind one or at once. -/
def gapStep (here : Gap.Pieces × Option Nat) (tables : List (Option Nat) × List (Option Nat)) :
    List (Option Nat) × List (Option Nat) :=
  (gapAt here.1 tables.2 :: tables.1, (gapAt here.1 tables.2 <|> here.2) :: tables.2)

theorem gapThen_eq (ps : List Gap.Pieces) (next : List (Option Nat)) :
    gapThen ps next = ((ps.zip next).foldr gapStep ([], [])).1 :=
  rfl

theorem tables_foldr_gapStep (hQ : ∀ s, Q s → s ≠ []) {next : List (Option Nat)}
    (hn : Table Q t next) :
    Table (Ahead Q) t (((t.mapSuffixes Gap.piecesAt).zip next).foldr gapStep ([], [])).1 ∧
      Table (Onward Q) t (((t.mapSuffixes Gap.piecesAt).zip next).foldr gapStep ([], [])).2 := by
  induction t generalizing next with
  | nil =>
    have hne {s s' : Text} (hs : Q s') (h : s' <:+ s) : s ≠ [] := by
      rintro rfl
      exact hQ s' hs (List.suffix_nil.mp h)
    refine ⟨table_nil fun s hs => ?_, table_nil fun s hs => ?_⟩
    · obtain ⟨s', hs', h⟩ := hs.exists_suffix
      exact hne hs' h
    · obtain ⟨s', hs', h⟩ := hs.exists_suffix
      exact hne hs' h
  | cons c r ih =>
    cases next with
    | nil =>
      rw [List.zip_nil_right]
      exact ⟨hn.of_suffix fun s => Ahead.exists_suffix, hn.of_suffix fun s => Onward.exists_suffix⟩
    | cons n next =>
      obtain ⟨hgaps, hlater⟩ := ih (show Table Q r next from fun i => hn (i + 1))
      rw [Text.mapSuffixes_cons, List.zip_cons_cons, List.foldr_cons]
      have hgap := entry_gapAt (c := c) hlater
      exact ⟨hgaps.cons hgap, hlater.cons (entry_onward hgap (hn 0))⟩

/-- What stands behind a gap makes the table of the gaps and what stands behind them. -/
theorem table_gapThen (hQ : ∀ s, Q s → s ≠ []) {next : List (Option Nat)} (hn : Table Q t next) :
    Table (Ahead Q) t (gapThen (t.mapSuffixes Gap.piecesAt) next) := by
  rw [gapThen_eq]
  exact (tables_foldr_gapStep hQ hn).1

theorem getElem?_join_zipWith {w : Text} (hw : w ≠ []) (gaps : List (Option Nat)) (i : Nat) :
    (List.zipWith (fun here gap => if here then gap.map (w.length + ·) else none)
      (t.mapSuffixes w.isPrefixOf) (gaps.drop w.length))[i]?.join =
      if w.isPrefixOf (t.drop i) then gaps[w.length + i]?.join.map (w.length + ·) else none := by
  rw [List.getElem?_zipWith, List.getElem?_drop, Text.getElem?_mapSuffixes]
  by_cases hi : i < t.length
  · rw [if_pos hi]
    cases gaps[w.length + i]? <;> simp
  · obtain ⟨a, w, rfl⟩ := List.exists_cons_of_ne_nil hw
    rw [if_neg hi, List.drop_of_length_le (Nat.le_of_not_lt hi)]
    rfl

theorem table_words {w : Text} (hw : w ≠ []) {gaps : List (Option Nat)} (h : Table P t gaps) :
    Table (fun s => ∃ s', P s' ∧ s = w ++ s') t
      (List.zipWith (fun here gap => if here then gap.map (w.length + ·) else none)
        (t.mapSuffixes w.isPrefixOf) (gaps.drop w.length)) := by
  intro i
  have hentry := h (w.length + i)
  rw [getElem?_join_zipWith hw]
  rw [Nat.add_comm, ← List.drop_drop] at hentry
  rw [Nat.add_comm]
  by_cases hpre : w <+: t.drop i
  · obtain ⟨v, hv⟩ := hpre
    rw [← hv, if_pos (List.isPrefixOf_iff_prefix.mpr (List.prefix_append _ _))]
    rw [← hv, List.drop_left] at hentry
    cases hgap : gaps[i + w.length]?.join with
    | some n =>
      rw [hgap] at hentry
      obtain ⟨s, hs, rfl, hp⟩ := hentry
      exact ⟨w ++ s, ⟨s, hs, rfl⟩, List.length_append, (List.prefix_append_right_inj w).mpr hp⟩
    | none =>
      rw [hgap] at hentry
      rintro _ ⟨s, hs, rfl⟩ hp
      exact hentry s hs ((List.prefix_append_right_inj w).mp hp)
  · rw [if_neg (by rwa [List.isPrefixOf_iff_prefix])]
    rintro _ ⟨s, -, rfl⟩ hp
    exact hpre ((List.prefix_append _ _).trans hp)

theorem Matches.ne_nil {ws : List Text} (h : Matches ws s) (hw : ∀ w ∈ ws, w ≠ []) : s ≠ [] := by
  cases h with
  | word => exact hw _ List.mem_cons_self
  | words => simp [hw _ List.mem_cons_self]

theorem matches_cons_iff {w v : Text} {ws : List Text} :
    Matches (w :: v :: ws) s ↔ ∃ s', Ahead (Matches (v :: ws)) s' ∧ s = w ++ s' := by
  constructor
  · intro h
    cases h with
    | words hg h => exact ⟨_, ⟨_, _, hg, h, rfl⟩, rfl⟩
  · rintro ⟨_, ⟨g, s', hg, h, rfl⟩, rfl⟩
    exact .words hg h

theorem matches_singleton_iff {w : Text} : Matches [w] s ↔ s = w := by
  constructor
  · intro h
    cases h
    rfl
  · rintro rfl
    exact .word

/-- The table of the search has an entry where the words begin, and nowhere else. -/
theorem table_lengthsAt (t : Text) {ws : List Text} (hne : ws ≠ []) (hws : ∀ w ∈ ws, w ≠ []) :
    Table (Matches ws) t (lengthsAt t (t.mapSuffixes Gap.piecesAt) ws) := by
  induction ws with
  | nil => exact absurd rfl hne
  | cons w ws ih =>
    cases ws with
    | nil =>
      intro i
      rw [lengthsAt, Text.getElem?_mapSuffixes]
      by_cases hp : w <+: t.drop i
      · have hi : i < t.length := by
          by_contra hi
          rw [List.drop_of_length_le (Nat.le_of_not_lt hi), List.prefix_nil] at hp
          exact hws w List.mem_cons_self hp
        rw [if_pos hi, if_pos (List.isPrefixOf_iff_prefix.mpr hp)]
        exact ⟨w, .word, rfl, hp⟩
      · have hnone : Entry (Matches [w]) (t.drop i) none := by
          intro s hs
          rwa [matches_singleton_iff.mp hs]
        by_cases hi : i < t.length
        · rwa [if_pos hi, if_neg (by rwa [List.isPrefixOf_iff_prefix])]
        · rwa [if_neg hi]
    | cons v ws =>
      have hws' : ∀ w ∈ v :: ws, w ≠ [] := fun w hw => hws w (List.mem_cons_of_mem _ hw)
      have hgaps := table_gapThen (fun s hs => hs.ne_nil hws') (ih (List.cons_ne_nil _ _) hws')
      have htable := table_words (hws w List.mem_cons_self) hgaps
      simp only [← matches_cons_iff] at htable
      exact htable

end

section

variable {P : Text → Prop} {t t' : Text} {byte byte' : Nat} {lengths lengths' : List (Option Nat)}
  {r : ByteRange}

theorem exists_of_next? (hP : ∀ s, P s → s ≠ []) (ht : Table P t lengths)
    (h : next? (byte, t, lengths) = some (r, (byte', t', lengths'))) : ∃ p m,
      t = p ++ (m ++ t') ∧ P m ∧
      r = ⟨byte + p.byteLength, byte + p.byteLength + m.byteLength⟩ ∧ byte' = r.stop ∧
      Table P t' lengths' := by
  simp only [next?] at h
  split at h
  · rename_i n more hm
    have hlengths : lengths = lengths.takeWhile (·.isNone) ++ some n :: more := by
      rw [← hm, List.takeWhile_append_dropWhile]
    generalize lengths.takeWhile (·.isNone) = skipped at h hlengths
    have hdrop := ht.drop skipped.length
    rw [hlengths, List.drop_left] at hdrop
    obtain ⟨m, hpm, rfl, v, hv⟩ := hdrop 0
    rw [List.drop_zero] at hv
    have hlen : m.length ≠ 0 := fun hz => hP m hpm (List.length_eq_zero_iff.mp hz)
    have hbehind := hdrop.drop m.length
    rw [← List.drop_drop, ← hv, List.drop_left, List.take_left] at h
    cases h
    refine ⟨t.take skipped.length, m, ?_, hpm, rfl, rfl, ?_⟩
    · rw [hv, List.take_append_drop]
    · obtain ⟨k, hk⟩ := Nat.exists_eq_succ_of_ne_zero hlen
      rw [← hv, List.drop_left, hk, List.drop_succ_cons] at hbehind
      rw [hk, Nat.succ_sub_one]
      exact hbehind
  · cases h

end

theorem exists_next?_of_mem {byte : Nat} {t : Text} {lengths : List (Option Nat)} {n : Nat}
    (h : some n ∈ lengths) : ∃ r s, next? (byte, t, lengths) = some (r, s) := by
  cases hd : lengths.dropWhile (·.isNone) with
  | nil => simpa using List.dropWhile_eq_nil_iff.mp hd (some n) h
  | cons o more =>
    have hhead := List.head?_dropWhile_not (·.isNone) lengths
    rw [hd, List.head?_cons] at hhead
    obtain ⟨k, rfl⟩ := Option.isSome_iff_exists.mp (by simpa using hhead : o.isSome = true)
    simp only [next?, hd]
    exact ⟨_, _, rfl⟩

/-- Words that stand in the text with gaps between them are found, there or ahead of it. -/
theorem all_ne_nil {words : List Text} (hne : words ≠ []) (hw : ∀ w ∈ words, w ≠ []) {t m : Text}
    (hm : Matches words m) (h : m <:+: t) : all words t ≠ [] := by
  obtain ⟨p, q, rfl⟩ := h
  have hentry := table_lengthsAt (p ++ m ++ q) hne hw p.length
  have hbegins : m <+: (p ++ m ++ q).drop p.length := by
    rw [List.append_assoc, List.drop_left]
    exact List.prefix_append _ _
  obtain ⟨n, hn⟩ := hentry.exists_of_matched hm hbegins
  obtain ⟨r, s, hnext⟩ : ∃ r s, next? (0, p ++ m ++ q, _) = some (r, s) :=
    exists_next?_of_mem (List.mem_of_getElem? (Option.join_eq_some_iff.mp hn))
  rw [all, unfold_eq, hnext]
  exact List.cons_ne_nil _ _

theorem all_nil (t : Text) : all [] t = [] := by
  rw [all, unfold_eq]
  rfl

theorem exists_of_mem_all {words : List Text} (hne : words ≠ []) (hw : ∀ w ∈ words, w ≠ [])
    {t : Text} {r : ByteRange} (hr : r ∈ all words t) : ∃ p m q, t = p ++ (m ++ q) ∧
      Matches words m ∧ r = ⟨p.byteLength, p.byteLength + m.byteLength⟩ := by
  have hfrom {byte : Nat} {u : Text} {lengths : List (Option Nat)}
      (hu : Table (Matches words) u lengths)
      (hr : r ∈ unfold (·.2.2.length) next? next?_shrinks (byte, u, lengths)) : ∃ p m q,
      u = p ++ (m ++ q) ∧ Matches words m ∧
        r = ⟨byte + p.byteLength, byte + p.byteLength + m.byteLength⟩ := by
    generalize hn : lengths.length = n
    induction n using Nat.strongRecOn generalizing byte u lengths with
    | ind n ih =>
      rw [unfold_eq] at hr
      split at hr
      · cases hr
      · rename_i a s h
        obtain ⟨byte', u', lengths'⟩ := s
        have hlt : lengths'.length < n := hn ▸ next?_shrinks _ _ _ h
        obtain ⟨p, m, rfl, hm, rfl, rfl, hu'⟩ := exists_of_next? (fun s hs => hs.ne_nil hw) hu h
        rcases List.mem_cons.mp hr with rfl | hr
        · exact ⟨p, m, u', rfl, hm, rfl⟩
        · obtain ⟨p', m', q, rfl, hm', rfl⟩ := ih _ hlt hu' hr rfl
          refine ⟨p ++ (m ++ p'), m', q, by simp only [List.append_assoc], hm', ?_⟩
          simp only [Text.byteLength_append, ByteRange.mk.injEq]
          omega
  obtain ⟨p, m, q, ht, hm, rfl⟩ := hfrom (table_lengthsAt t hne hw) hr
  exact ⟨p, m, q, ht, hm, by simp only [Nat.zero_add]⟩

end Occurrence

end Wikitext
