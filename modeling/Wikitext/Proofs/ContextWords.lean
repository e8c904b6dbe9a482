import Wikitext.Selection.Locate

/-! The words that are left of a text with templates and parentheticals in it. A parenthetical goes
up to its own `)`; of the templates on one line all goes from the first to the last, so the words
between them are lost too. -/

namespace Wikitext

namespace Text

theorem breakOn?_append_of_notMem {c : Char} {w p : Text} (hp : c ∉ p) (r : Text) :
    (p ++ (c :: w ++ r)).breakOn? (c :: w) = some (p, r) := by
  have hfrom (passed : Text) :
      breakOnFrom (c :: w) passed (p ++ (c :: w ++ r)) = some (passed.reverse ++ p, r) := by
    induction p generalizing passed with
    | nil =>
      have hpre : (c :: w).isPrefixOf (c :: w ++ r) = true :=
        List.isPrefixOf_iff_prefix.mpr (List.prefix_append _ _)
      rw [List.nil_append, List.append_nil, List.cons_append, breakOnFrom, ← List.cons_append,
        if_pos hpre, List.drop_left]
    | cons a p ih =>
      rw [List.mem_cons, not_or] at hp
      rw [List.cons_append, breakOnFrom, if_neg, ih hp.2]
      · simp
      · simp [hp.1]
  exact hfrom []

theorem breakOn?_of_notMem {c : Char} {w t : Text} (ht : c ∉ t) : t.breakOn? (c :: w) = none := by
  cases h : t.breakOn? (c :: w) with
  | none => rfl
  | some pq =>
    obtain ⟨p, q⟩ := pq
    rw [breakOn?_eq_append h] at ht
    simp at ht

theorem splitOn_cons (c : Char) (t : Text) (sep : Char) : ∃ part parts,
    t.splitOn sep = part :: parts ∧
    splitOn (c :: t) sep = if c = sep then [] :: part :: parts else (c :: part) :: parts := by
  refine ⟨_, _, rfl, ?_⟩
  by_cases hc : c = sep <;> simp [splitOn, hc]

theorem splitOn_of_notMem {t : Text} {sep : Char} (h : sep ∉ t) : t.splitOn sep = [t] := by
  induction t with
  | nil => rfl
  | cons c t ih =>
    rw [List.mem_cons, not_or] at h
    obtain ⟨part, parts, ht, hc⟩ := splitOn_cons c t sep
    rw [ih h.2] at ht
    obtain ⟨rfl, rfl⟩ := List.cons.inj ht
    rw [hc, if_neg (Ne.symm h.1)]

theorem splitOn_append_cons {p : Text} {sep : Char} (h : sep ∉ p) (t : Text) :
    (p ++ sep :: t).splitOn sep = p :: t.splitOn sep := by
  induction p with
  | nil =>
    obtain ⟨part, parts, ht, hc⟩ := splitOn_cons sep t sep
    rw [List.nil_append, hc, if_pos rfl, ht]
  | cons c p ih =>
    rw [List.mem_cons, not_or] at h
    obtain ⟨part, parts, ht, hc⟩ := splitOn_cons c (p ++ sep :: t) sep
    rw [ih h.2] at ht
    obtain ⟨rfl, rfl⟩ := List.cons.inj ht
    rw [List.cons_append, hc, if_neg (Ne.symm h.1)]

end Text

namespace Context

theorem dropParentheticalsOnto_eq (kept t : Text) :
    dropParentheticalsOnto kept t = kept.reverse ++ dropParentheticals t := by
  generalize hn : t.length = n
  induction n using Nat.strongRecOn generalizing kept t with
  | ind n ih =>
    have hstep (c : Char) (r : Text) (hr : r.length < n) :
        dropParentheticalsOnto (c :: kept) r =
          kept.reverse ++ dropParentheticalsOnto [c] r := by
      rw [ih _ hr _ r rfl, ih _ hr [c] r rfl]
      simp
    rw [dropParentheticals, dropParentheticalsOnto.eq_def, dropParentheticalsOnto.eq_def []]
    cases t with
    | nil => simp
    | cons c r =>
      rw [List.length_cons] at hn
      simp only
      split
      · split
        · rename_i rest hrest
          exact ih _ (by have hlt := afterParenthetical?_shrinks hrest; omega) kept rest rfl
        · exact hstep c r (by omega)
      · exact hstep c r (by omega)

theorem dropParentheticals_nil : dropParentheticals [] = [] := by
  rw [dropParentheticals, dropParentheticalsOnto.eq_def]
  rfl

theorem dropParentheticals_cons_of_ne {c : Char} (hc : c ≠ '(') (t : Text) :
    dropParentheticals (c :: t) = c :: dropParentheticals t := by
  rw [dropParentheticals, dropParentheticalsOnto.eq_def]
  simp only [if_neg hc]
  exact dropParentheticalsOnto_eq [c] t

theorem dropParentheticals_append {p : Text} (hp : '(' ∉ p) (t : Text) :
    dropParentheticals (p ++ t) = p ++ dropParentheticals t := by
  induction p with
  | nil => rfl
  | cons c p ih =>
    rw [List.mem_cons, not_or] at hp
    rw [List.cons_append, dropParentheticals_cons_of_ne (Ne.symm hp.1), ih hp.2, List.cons_append]

theorem dropParentheticals_aside {b : Text} (hb : ∀ c ∈ b, c ≠ ')' ∧ c ≠ '\n') (t : Text) :
    dropParentheticals ('(' :: (b ++ ')' :: t)) = dropParentheticals t := by
  have hkeep : ∀ c ∈ b, (c ≠ ')' && c ≠ '\n') = true := by
    intro c hc
    simpa using hb c hc
  have hafter : afterParenthetical? (b ++ ')' :: t) = some t := by
    rw [afterParenthetical?, List.dropWhile_append_of_pos hkeep]
    rfl
  rw [dropParentheticals, dropParentheticalsOnto.eq_def]
  simp only [if_pos]
  split
  · rename_i rest hrest
    obtain rfl := Option.some.inj (hrest.symm.trans hafter)
    rfl
  · rename_i hnone
    cases hnone.symm.trans hafter

theorem dropLineTemplate_of_notMem {line : Text} (h : '\x7b' ∉ line) :
    dropLineTemplate line = line := by
  rw [dropLineTemplate, Text.breakOn?_of_notMem h]

theorem dropLineTemplate_template {p s : Text} (hp : '\x7b' ∉ p) (hs : '\x7d' ∉ s) (b : Text) :
    dropLineTemplate (p ++ (['{', '{'] ++ (b ++ (['}', '}'] ++ s)))) = p ++ s := by
  have hopen := Text.breakOn?_append_of_notMem (w := ['{']) hp (b ++ (['}', '}'] ++ s))
  have hclose : afterLastClose? (b ++ (['}', '}'] ++ s)) = some s := by
    have hrev := Text.breakOn?_append_of_notMem (w := ['}']) (p := s.reverse)
      (by simpa using hs) b.reverse
    have happ : (b ++ (['}', '}'] ++ s)).reverse =
        s.reverse ++ (['}', '}'] ++ b.reverse) := by
      simp
    rw [afterLastClose?, happ, hrev, Option.map_some, List.reverse_reverse]
  rw [dropLineTemplate, hopen]
  simp only [hclose]

theorem dropTemplates_line {line : Text} (h : '\n' ∉ line) :
    dropTemplates line = dropLineTemplate line := by
  simp [dropTemplates, Text.splitOn_of_notMem h]

theorem dropTemplates_append_line {line : Text} (h : '\n' ∉ line) (t : Text) :
    dropTemplates (line ++ '\n' :: t) = dropLineTemplate line ++ '\n' :: dropTemplates t := by
  rw [dropTemplates, Text.splitOn_append_cons h, dropTemplates, Text.splitOn]
  simp

/-- Text without braces, up to its last line, goes through as it is. -/
theorem exists_last_line {p : Text} (hp : '\x7b' ∉ p) : ∃ q line, p = q ++ line ∧ '\n' ∉ line ∧
    ∀ t, dropTemplates (q ++ t) = q ++ dropTemplates t := by
  generalize hn : p.length = n
  induction n using Nat.strongRecOn generalizing p with
  | ind n ih =>
    by_cases hfeed : '\n' ∈ p
    · obtain ⟨line, r, rfl, hline⟩ := List.eq_append_cons_of_mem hfeed
      rw [List.mem_append, List.mem_cons, not_or, not_or] at hp
      rw [List.length_append, List.length_cons] at hn
      obtain ⟨q, last, rfl, hlast, hq⟩ := ih _ (by omega) hp.2.2 rfl
      refine ⟨line ++ '\n' :: q, last, by simp, hlast, fun t => ?_⟩
      rw [List.append_assoc, List.cons_append, dropTemplates_append_line hline, hq,
        dropLineTemplate_of_notMem hp.1]
      simp
    · exact ⟨[], p, rfl, hfeed, fun _ => rfl⟩

theorem dropTemplates_of_notMem {t : Text} (ht : '\x7b' ∉ t) : dropTemplates t = t := by
  obtain ⟨q, line, rfl, hline, hq⟩ := exists_last_line ht
  rw [List.mem_append, not_or] at ht
  rw [hq, dropTemplates_line hline, dropLineTemplate_of_notMem ht.2]

/-- A piece of a text: a plain run, a template, or a parenthetical. -/
inductive Piece where
  | plain (t : Text)
  | template (body : Text)
  | aside (body : Text)
  deriving DecidableEq, Repr

namespace Piece

def text : Piece → Text
  | plain t => t
  | template b => ['{', '{'] ++ (b ++ ['}', '}'])
  | aside b => '(' :: (b ++ [')'])

/-- No piece lies inside another, and templates and parentheticals do not run over lines. -/
def Flat : Piece → Prop
  | plain t => ∀ c ∈ t, c ∉ ['(', ')', '{', '}']
  | template b => ∀ c ∈ b, c ∉ ['(', ')', '{', '}', '\n']
  | aside b => ∀ c ∈ b, c ∉ ['(', ')', '{', '}', '\n']

instance : DecidablePred Flat
  | plain t => inferInstanceAs (Decidable (∀ c ∈ t, c ∉ ['(', ')', '{', '}']))
  | template b => inferInstanceAs (Decidable (∀ c ∈ b, c ∉ ['(', ')', '{', '}', '\n']))
  | aside b => inferInstanceAs (Decidable (∀ c ∈ b, c ∉ ['(', ')', '{', '}', '\n']))

/-- What a piece is without parentheticals. -/
def spoken : Piece → Text
  | plain t => t
  | template b => ['{', '{'] ++ (b ++ ['}', '}'])
  | aside _ => []

def plainText : Piece → Text
  | plain t => t
  | template _ | aside _ => []

end Piece

/-- Whether a template comes before the end of the line. -/
def reaches : List Piece → Bool
  | [] => false
  | .plain t :: ps => '\n' ∉ t && reaches ps
  | .template _ :: _ => true
  | .aside _ :: ps => reaches ps

/-- What is kept of some pieces: the plain runs, but for those with templates on their line both
before and behind. `behind` says that a template stands ahead of the pieces, on their line. -/
def kept (behind : Bool) : List Piece → Text
  | [] => []
  | .plain t :: ps =>
    if behind && '\n' ∉ t then (if reaches ps then [] else t) ++ kept true ps
    else t ++ kept false ps
  | .template _ :: ps => kept true ps
  | .aside _ :: ps => kept behind ps

theorem dropParentheticals_pieces {ps : List Piece} (h : ∀ p ∈ ps, p.Flat) :
    dropParentheticals (ps.flatMap Piece.text) = ps.flatMap Piece.spoken := by
  induction ps with
  | nil => exact dropParentheticals_nil
  | cons p ps ih =>
    have hp := h p List.mem_cons_self
    have hps := ih fun q hq => h q (List.mem_cons_of_mem _ hq)
    rw [List.flatMap_cons, List.flatMap_cons]
    cases p with
    | plain t =>
      have ht : '(' ∉ t := fun hmem => hp '(' hmem (by simp)
      rw [Piece.text, dropParentheticals_append ht, hps, Piece.spoken]
    | template b =>
      have hb : '(' ∉ b := fun hmem => hp '(' hmem (by simp)
      rw [dropParentheticals_append (by simp [Piece.text, hb]), hps]
      rfl
    | aside b =>
      have hb : ∀ c ∈ b, c ≠ ')' ∧ c ≠ '\n' := by
        intro c hc
        have hno := hp c hc
        simp only [List.mem_cons, not_or] at hno
        exact ⟨hno.2.1, hno.2.2.2.2.1⟩
      rw [Piece.text, List.cons_append, List.append_assoc, List.singleton_append,
        dropParentheticals_aside hb, hps]
      rfl

/-- From a place without a template ahead of it on its line the pieces go through as far as they are
kept; so they do behind templates on one line, which take in what is read before another. -/
theorem dropTemplates_pieces {ps : List Piece} (h : ∀ p ∈ ps, p.Flat) :
    (∀ p : Text, '\x7b' ∉ p →
      dropTemplates (p ++ ps.flatMap Piece.spoken) = p ++ kept false ps) ∧
    ∀ line b r : Text, '\x7b' ∉ line → '\x7d' ∉ r → '\n' ∉ line ++ (b ++ r) →
      dropTemplates
          (line ++ (['{', '{'] ++ (b ++ (['}', '}'] ++ (r ++ ps.flatMap Piece.spoken))))) =
        line ++ ((if reaches ps then [] else r) ++ kept true ps) := by
  induction ps with
  | nil =>
    refine ⟨fun p hp => ?_, fun line b r hline hr hfeed => ?_⟩
    · rw [List.flatMap_nil, List.append_nil, dropTemplates_of_notMem hp]
      exact (List.append_nil p).symm
    · rw [List.flatMap_nil, List.append_nil, dropTemplates_line (by simpa using hfeed),
        dropLineTemplate_template hline hr]
      simp [reaches, kept]
  | cons p ps ih =>
    have hp := h p List.mem_cons_self
    obtain ⟨hplain, htemplate⟩ := ih fun q hq => h q (List.mem_cons_of_mem _ hq)
    cases p with
    | plain t =>
      have hopen : '\x7b' ∉ t := fun hmem => hp '\x7b' hmem (by simp)
      have hclose : '\x7d' ∉ t := fun hmem => hp '\x7d' hmem (by simp)
      refine ⟨fun p hp => ?_, fun line b r hline hr hfeed => ?_⟩
      · have ht := hplain (p ++ t) (by simp [hp, hopen])
        simpa [Piece.spoken, kept] using ht
      · by_cases htfeed : '\n' ∈ t
        · -- The line ends in the run, so all of it is behind the last template.
          obtain ⟨u, v, rfl, hu⟩ := List.eq_append_cons_of_mem htfeed
          rw [List.mem_append, List.mem_cons, not_or, not_or] at hopen hclose
          have happ : line ++ (['{', '{'] ++ (b ++ (['}', '}'] ++
              (r ++ ((u ++ '\n' :: v) ++ ps.flatMap Piece.spoken))))) =
              (line ++ (['{', '{'] ++ (b ++ (['}', '}'] ++ (r ++ u))))) ++
                '\n' :: (v ++ ps.flatMap Piece.spoken) := by
            simp
          have hends : '\n' ∉ line ++ (['{', '{'] ++ (b ++ (['}', '}'] ++ (r ++ u)))) := by
            simpa [hu] using hfeed
          have hlast : '\x7d' ∉ r ++ u := by simp [hr, hclose.1]
          rw [List.flatMap_cons, Piece.spoken, happ, dropTemplates_append_line hends,
            dropLineTemplate_template hline hlast, hplain v hopen.2.2]
          simp [reaches, kept]
        · have ht := htemplate line b (r ++ t) hline (by simp [hr, hclose])
            (by simpa [htfeed] using hfeed)
          rw [List.append_assoc r t] at ht
          rw [List.flatMap_cons, Piece.spoken, ht]
          by_cases hreaches : reaches ps = true <;> simp [reaches, kept, htfeed, hreaches]
    | template c =>
      have hc : '\n' ∉ c := fun hmem => hp '\n' hmem (by simp)
      refine ⟨fun p hp => ?_, fun line b r hline hr hfeed => ?_⟩
      · obtain ⟨q, line, rfl, hfeed, hq⟩ := exists_last_line hp
        rw [List.mem_append, not_or] at hp
        have ht := htemplate line c [] hp.2 (by simp) (by simp [hfeed, hc])
        rw [List.flatMap_cons, List.append_assoc q, hq]
        simpa [Piece.spoken, kept] using ht
      · have ht := htemplate line (b ++ (['}', '}'] ++ (r ++ (['{', '{'] ++ c)))) [] hline
          (by simp) (by simpa [hc] using hfeed)
        rw [List.flatMap_cons]
        simpa [Piece.spoken, reaches, kept] using ht
    | aside b =>
      exact ⟨hplain, htemplate⟩

/-- All plain runs among some pieces have a property. -/
def EachRun (P : Text → Prop) (ps : List Piece) : Prop :=
  ∀ t, Piece.plain t ∈ ps → P t

section

variable {P : Text → Prop} {ps : List Piece} {p : Piece} {t : Text}

theorem eachRun_nil : EachRun P [] := nofun

theorem eachRun_plain : EachRun P (.plain t :: ps) ↔ P t ∧ EachRun P ps := by
  simp [EachRun, or_imp, forall_and]

theorem eachRun_cons (hp : ∀ t, p ≠ .plain t) : EachRun P (p :: ps) ↔ EachRun P ps := by
  refine forall_congr' fun t => ?_
  rw [List.mem_cons, or_iff_right (hp t).symm]

theorem eachRun_aside {x : Text} : EachRun P (.aside x :: ps) ↔ EachRun P ps :=
  eachRun_cons nofun

end

theorem reaches_iff {ps : List Piece} : reaches ps = true ↔
    ∃ mid y b, ps = mid ++ .template y :: b ∧ EachRun ('\n' ∉ ·) mid := by
  constructor
  · intro h
    induction ps with
    | nil => cases h
    | cons p ps ih =>
      cases p with
      | plain t =>
        simp only [reaches, Bool.and_eq_true, decide_eq_true_eq] at h
        obtain ⟨mid, y, b, rfl, hmid⟩ := ih h.2
        exact ⟨.plain t :: mid, y, b, rfl, eachRun_plain.mpr ⟨h.1, hmid⟩⟩
      | template c => exact ⟨[], c, ps, rfl, eachRun_nil⟩
      | aside c =>
        obtain ⟨mid, y, b, rfl, hmid⟩ := ih h
        exact ⟨.aside c :: mid, y, b, rfl, eachRun_aside.mpr hmid⟩
  · rintro ⟨mid, y, b, rfl, hmid⟩
    induction mid with
    | nil => rfl
    | cons p mid ih =>
      cases p with
      | plain t =>
        obtain ⟨ht, hmid⟩ := eachRun_plain.mp hmid
        simp [reaches, ht, ih hmid]
      | template c => rfl
      | aside c => exact ih (eachRun_aside.mp hmid)

/-- No plain run stands between this place and a template on the same line. -/
def Clear (ps : List Piece) : Prop :=
  ∀ mid y b, ps = mid ++ .template y :: b → EachRun ('\n' ∉ ·) mid → EachRun (· = []) mid

/-- No plain run stands between two templates on one line. -/
def Apart (ps : List Piece) : Prop :=
  ∀ a x b, ps = a ++ .template x :: b → Clear b

theorem clear_nil : Clear [] := by
  rintro (_ | _) _ _ hps
  · cases hps
  · cases hps

theorem clear_plain {t : Text} {ps : List Piece} :
    Clear (.plain t :: ps) ↔ '\n' ∈ t ∨ (reaches ps = true → t = []) ∧ Clear ps := by
  constructor
  · intro h
    by_cases hfeed : '\n' ∈ t
    · exact .inl hfeed
    · have hmore {mid b : List Piece} {y : Text} (hps : ps = mid ++ .template y :: b)
          (hmid : EachRun ('\n' ∉ ·) mid) : t = [] ∧ EachRun (· = []) mid :=
        eachRun_plain.mp (h (.plain t :: mid) y b (by rw [hps, List.cons_append])
          (eachRun_plain.mpr ⟨hfeed, hmid⟩))
      refine .inr ⟨fun hreaches => ?_, fun mid y b hps hmid => (hmore hps hmid).2⟩
      obtain ⟨mid, y, b, hps, hmid⟩ := reaches_iff.mp hreaches
      exact (hmore hps hmid).1
  · rintro h (_ | ⟨p, mid⟩) y b hps hmid
    · exact eachRun_nil
    · obtain ⟨rfl, hrest⟩ := List.cons.inj hps
      obtain ⟨hfeed, hmid⟩ := eachRun_plain.mp hmid
      obtain ⟨ht, hclear⟩ := h.resolve_left hfeed
      exact eachRun_plain.mpr
        ⟨ht (reaches_iff.mpr ⟨mid, y, b, hrest, hmid⟩), hclear mid y b hrest hmid⟩

theorem clear_cons {p : Piece} {ps : List Piece} (hp : ∀ t, p ≠ .plain t) :
    Clear (p :: ps) ↔ Clear ps := by
  constructor
  · intro h mid y b hps hmid
    exact (eachRun_cons hp).mp
      (h (p :: mid) y b (by rw [hps, List.cons_append]) ((eachRun_cons hp).mpr hmid))
  · rintro h (_ | ⟨q, mid⟩) y b hps hmid
    · exact eachRun_nil
    · obtain ⟨rfl, hrest⟩ := List.cons.inj hps
      exact (eachRun_cons hp).mpr (h mid y b hrest ((eachRun_cons hp).mp hmid))

theorem clear_template {x : Text} {ps : List Piece} : Clear (.template x :: ps) ↔ Clear ps :=
  clear_cons nofun

theorem clear_aside {x : Text} {ps : List Piece} : Clear (.aside x :: ps) ↔ Clear ps :=
  clear_cons nofun

theorem apart_nil : Apart [] := by
  rintro (_ | _) _ _ hps
  · cases hps
  · cases hps

theorem apart_cons {p : Piece} {ps : List Piece} :
    Apart (p :: ps) ↔ ((∃ x, p = .template x) → Clear ps) ∧ Apart ps := by
  constructor
  · intro h
    refine ⟨?_, fun a x b hps => h (p :: a) x b (by rw [hps, List.cons_append])⟩
    rintro ⟨x, rfl⟩
    exact h [] x ps rfl
  · rintro ⟨hclear, h⟩ (_ | ⟨q, a⟩) x b hps
    · obtain ⟨rfl, rfl⟩ := List.cons.inj hps
      exact hclear ⟨x, rfl⟩
    · exact h a x b (List.cons.inj hps).2

instance decidableClear : DecidablePred Clear
  | [] => .isTrue clear_nil
  | .plain t :: ps =>
    have := decidableClear ps
    decidable_of_iff ('\n' ∈ t ∨ (reaches ps = true → t = []) ∧ Clear ps) clear_plain.symm
  | .template _ :: ps =>
    have := decidableClear ps
    decidable_of_iff (Clear ps) clear_template.symm
  | .aside _ :: ps =>
    have := decidableClear ps
    decidable_of_iff (Clear ps) clear_aside.symm

instance decidableApart : DecidablePred Apart
  | [] => .isTrue apart_nil
  | .template x :: ps =>
    have := decidableApart ps
    decidable_of_iff (Clear ps ∧ Apart ps) (by simp [apart_cons])
  | .plain t :: ps =>
    have := decidableApart ps
    decidable_of_iff (Apart ps) (by simp [apart_cons])
  | .aside x :: ps =>
    have := decidableApart ps
    decidable_of_iff (Apart ps) (by simp [apart_cons])

theorem kept_of_apart (ps : List Piece) :
    (Apart ps → kept false ps = ps.flatMap Piece.plainText) ∧
      (Apart ps → Clear ps → kept true ps = ps.flatMap Piece.plainText) := by
  induction ps with
  | nil => exact ⟨fun _ => rfl, fun _ _ => rfl⟩
  | cons p ps ih =>
    obtain ⟨hfalse, htrue⟩ := ih
    rw [List.flatMap_cons, apart_cons]
    cases p with
    | plain t =>
      refine ⟨fun h => ?_, fun h hclear => ?_⟩
      · rw [← hfalse h.2]
        rfl
      · by_cases hfeed : '\n' ∈ t
        · rw [← hfalse h.2]
          simp [kept, hfeed, Piece.plainText]
        · obtain ⟨ht, hclear⟩ := (clear_plain.mp hclear).resolve_left hfeed
          rw [← htrue h.2 hclear]
          by_cases hreaches : reaches ps = true
          · simp [kept, ht hreaches, Piece.plainText]
          · simp [kept, hfeed, hreaches, Piece.plainText]
    | template c =>
      exact ⟨fun h => htrue h.2 (h.1 ⟨c, rfl⟩), fun h _ => htrue h.2 (h.1 ⟨c, rfl⟩)⟩
    | aside c => exact ⟨fun h => hfalse h.2, fun h hclear => htrue h.2 (clear_aside.mp hclear)⟩

theorem mem_of_mem_kept {behind : Bool} {ps : List Piece} {c : Char} (h : c ∈ kept behind ps) :
    c ∈ ps.flatMap Piece.plainText := by
  induction ps generalizing behind with
  | nil => exact h
  | cons p ps ih =>
    rw [List.flatMap_cons, List.mem_append]
    cases p with
    | plain t =>
      rw [kept] at h
      split at h
      · rcases List.mem_append.mp h with h | h
        · split at h
          · cases h
          · exact .inl h
        · exact .inr (ih h)
      · exact (List.mem_append.mp h).imp id ih
    | template b => exact .inr (ih h)
    | aside b => exact .inr (ih h)

theorem wordsOf_of_notMem {t : Text} (hround : '(' ∉ t) (hcurly : '\x7b' ∉ t) :
    wordsOf t = t.runs isWord := by
  have ht := dropParentheticals_append hround []
  rw [dropParentheticals_nil, List.append_nil] at ht
  rw [wordsOf, ht, dropTemplates_of_notMem hcurly]

/-- The words of a text are those of what is kept of its pieces: all its plain runs, if none of them
stands between two templates on one line. -/
theorem wordsOf_pieces {ps : List Piece} (h : ∀ p ∈ ps, p.Flat) :
    wordsOf (ps.flatMap Piece.text) = wordsOf (kept false ps) ∧
    (Apart ps →
      wordsOf (ps.flatMap Piece.text) = wordsOf (ps.flatMap Piece.plainText)) := by
  have hchars : ∀ c ∈ ps.flatMap Piece.plainText, c ∉ ['(', ')', '{', '}'] := by
    intro c hc
    obtain ⟨p, hp, hc⟩ := List.mem_flatMap.mp hc
    cases p with
    | plain t => exact h _ hp c hc
    | template b => cases hc
    | aside b => cases hc
  have hkept : wordsOf (ps.flatMap Piece.text) = wordsOf (kept false ps) := by
    have hdrop := (dropTemplates_pieces h).1 [] (by simp)
    rw [wordsOf_of_notMem (fun hmem => hchars _ (mem_of_mem_kept hmem) (by simp))
      (fun hmem => hchars _ (mem_of_mem_kept hmem) (by simp)), wordsOf,
      dropParentheticals_pieces h]
    exact congrArg _ hdrop
  exact ⟨hkept, fun hapart => by rw [hkept, (kept_of_apart ps).1 hapart]⟩

/-- Templates side by side, at the beginning of a line and at the end of one. -/
def notedLine : List Piece :=
  [.template "a".toList, .aside "b".toList, .template "c".toList, .plain "The cat\n".toList,
    .aside "d".toList, .plain "sat. ".toList, .template "e".toList]

theorem wordsOf_pieces_notedLine :
    wordsOf (notedLine.flatMap Piece.text) = ["The".toList, "cat".toList, "sat".toList] := by
  exact ((wordsOf_pieces (by decide)).2 (by decide)).trans (by decide +kernel)

/-- A word between two templates on one line is lost, and with it the better of two candidates. -/
theorem wordsOf_loses_word :
    let ps : List Piece := [.plain "x 1 2 3 4 5 6 x ".toList, .template "a".toList,
      .plain " b ".toList, .template "c".toList]
    let s : Selection := ⟨[], "x".toList, "b".toList⟩
    (∀ p ∈ ps, p.Flat) ∧
    wordsOf (ps.flatMap Piece.plainText) = wordsOf (ps.flatMap Piece.text) ++ ["b".toList] ∧
    s.locate? (.ofText (ps.flatMap Piece.plainText)) = some ⟨14, 1⟩ ∧
    s.locate? (.ofText (ps.flatMap Piece.text)) = some ⟨0, 1⟩ := by
  decide +kernel

end Context

end Wikitext
