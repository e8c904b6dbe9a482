import Wikitext.Proofs.TreeLinks
import Wikitext.Rendering

/-! What a reader sees of a well-formed tree. The open links of the tree and the texts held for
them are opened and closed together, so reading the steps of a node at the template depth zero
writes what the node shows and leaves everything around it as it was. -/

namespace Wikitext

open Step

mutual

/-- What a node shows before tags go. A link shows its last part. -/
def Node.shown : Node → Text
  | .text t => t
  | .comment _ | .template _ => []
  | .link first rest => (partsShown rest).getLastD (treeShown first)

def treeShown : List Node → Text
  | [] => []
  | n :: t => n.shown ++ treeShown t

def partsShown : List (List Node) → List Text
  | [] => []
  | t :: ts => treeShown t :: partsShown ts

end

def Tree.shown (t : Tree) : Text :=
  treeShown t

/-- `Stripped t r`: of the text `t` the text `r` is left when its leftmost tag is deleted, then the
leftmost behind it, and so on. A tag runs from a `<` to the next `>`. -/
inductive Stripped : Text → Text → Prop
  | done {t : Text} (h : ∀ p q, t = p ++ '<' :: q → '>' ∉ q) : Stripped t t
  | tag {p b t r : Text} (hp : '<' ∉ p) (hb : '>' ∉ b) (h : Stripped t r) :
    Stripped (p ++ '<' :: (b ++ '>' :: t)) (p ++ r)

theorem suffix_of_append_cons_eq {α : Type} {c : α} {p q p' q' : List α} (hp : c ∉ p)
    (h : p ++ c :: q = p' ++ c :: q') : q' <:+ q := by
  rcases List.append_eq_append_iff.mp h with ⟨a, rfl, ha⟩ | ⟨a, rfl, ha⟩
  · cases a with
    | nil =>
      obtain ⟨-, rfl⟩ := List.cons.inj ha
      exact List.suffix_rfl
    | cons d a =>
      obtain ⟨-, rfl⟩ := List.cons.inj ha
      exact (List.suffix_cons c q').trans (List.suffix_append a _)
  · cases a with
    | nil =>
      obtain ⟨-, rfl⟩ := List.cons.inj ha
      exact List.suffix_rfl
    | cons d a =>
      obtain ⟨rfl, -⟩ := List.cons.inj ha
      simp at hp

theorem stripTags_eq (t : Text) :
    stripTags t =
      match nextTagless? t with
      | none => []
      | some (a, r) => a ++ stripTags r := by
  rw [stripTags, unfold_eq]
  cases nextTagless? t <;> rfl

theorem keep_of_notMem {c : Char} {t : Text} (h : c ∉ t) : ∀ a ∈ t, decide (a ≠ c) = true :=
  fun _ ha => decide_eq_true fun he => h (he ▸ ha)

theorem stripTags_nil : stripTags [] = [] := stripTags_eq []

theorem stripTags_append {p t : Text} (hp : '<' ∉ p) (ht : ∀ c ∈ t.head?, c = '<') :
    stripTags (p ++ t) = p ++ stripTags t := by
  cases p with
  | nil => rfl
  | cons c p =>
    simp only [List.mem_cons, not_or] at hp
    have hkeep := keep_of_notMem hp.2
    have hstop : t.takeWhile (· ≠ '<') = [] ∧ t.dropWhile (· ≠ '<') = t := by
      cases t with
      | nil => exact ⟨rfl, rfl⟩
      | cons d t =>
        obtain rfl := ht d rfl
        exact ⟨rfl, rfl⟩
    rw [stripTags_eq, List.cons_append, nextTagless?, if_neg (Ne.symm hp.1),
      List.takeWhile_append_of_pos hkeep, List.dropWhile_append_of_pos hkeep, hstop.1, hstop.2,
      List.append_nil]

theorem stripTags_tag {b : Text} (hb : '>' ∉ b) (t : Text) :
    stripTags ('<' :: (b ++ '>' :: t)) = stripTags t := by
  have hafter : afterTag? (b ++ '>' :: t) = some t := by
    rw [afterTag?, List.dropWhile_append_of_pos (keep_of_notMem hb)]
    rfl
  rw [stripTags_eq, nextTagless?, if_pos rfl, hafter]
  rfl

theorem stripTags_open {q : Text} (hq : '>' ∉ q) : stripTags ('<' :: q) = '<' :: q := by
  have hafter : afterTag? q = none := by
    rw [afterTag?, List.dropWhile_eq_nil_iff.mpr (keep_of_notMem hq)]
  rw [stripTags_eq, nextTagless?, if_pos rfl, hafter]
  simp [stripTags_nil]

theorem Stripped.stripTags_eq {t r : Text} (h : Stripped t r) : stripTags t = r := by
  induction h with
  | @done t h =>
    by_cases ht : '<' ∈ t
    · obtain ⟨p, q, rfl, hp⟩ := List.eq_append_cons_of_mem ht
      rw [stripTags_append hp (by simp), stripTags_open (h p q rfl)]
    · have he := stripTags_append (t := []) ht (by simp)
      rwa [stripTags_nil, List.append_nil] at he
  | tag hp hb h ih => rw [stripTags_append hp (by simp), stripTags_tag hb, ih]

theorem exists_stripped (t : Text) : ∃ r, Stripped t r := by
  generalize hn : t.length = n
  induction n using Nat.strongRecOn generalizing t with
  | ind n ih =>
    by_cases ht : ∃ p q, t = p ++ '<' :: q ∧ '>' ∈ q
    · -- When any `<` has a `>` behind it, the first has.
      obtain ⟨p', q', he, hq'⟩ := ht
      have hmem : '<' ∈ t := by simp [he]
      obtain ⟨p, q, rfl, hp⟩ := List.eq_append_cons_of_mem hmem
      have hq := (suffix_of_append_cons_eq hp he).subset hq'
      obtain ⟨b, u, rfl, hb⟩ := List.eq_append_cons_of_mem hq
      obtain ⟨r, hr⟩ := ih u.length (by simp at hn; omega) u rfl
      exact ⟨p ++ r, .tag hp hb hr⟩
    · exact ⟨t, .done fun p q he hq => ht ⟨p, q, he, hq⟩⟩

theorem stripped_iff {t r : Text} : Stripped t r ↔ r = stripTags t := by
  constructor
  · exact fun h => h.stripTags_eq.symm
  · rintro rfl
    obtain ⟨r, hr⟩ := exists_stripped t
    rwa [hr.stripTags_eq]

namespace Reading

variable {r : Reading}

@[simp]
theorem write_nil : r.write [] = r := by
  simp [write]

@[simp]
theorem write_write (s t : Text) : (r.write s).write t = r.write (s ++ t) := by
  simp [write]

theorem foldl_read_inside {ss : List Step} (h : ∀ s ∈ ss, 0 < s.depths.template) :
    ss.foldl read r = r := by
  induction ss with
  | nil => rfl
  | cons s ss ih =>
    rw [List.foldl_cons, read, if_pos (h s List.mem_cons_self)]
    exact ih fun s hs => h s (List.mem_cons_of_mem _ hs)

theorem foldl_read_plain {ss : List Step}
    (h : ∀ s ∈ ss, (s.kind = .text ∨ s.kind = .newline) ∧ s.depths.template = 0) :
    ss.foldl read r = r.write (textOf ss) := by
  induction ss generalizing r with
  | nil => exact write_nil.symm
  | cons s ss ih =>
    obtain ⟨hk, hd⟩ := h s List.mem_cons_self
    have hs : r.read s = r.write s.text := by
      rcases hk with hk | hk <;> simp [read, readOutside, hk, hd]
    rw [List.foldl_cons, hs, ih fun s hs => h s (List.mem_cons_of_mem _ hs), write_write,
      textOf_cons]

end Reading

open Reading

mutual

theorem Node.Steps.foldl_read {link : Nat} : {n : Node} → {ss : List Step} →
    n.Steps ⟨0, link⟩ ss → (r : Reading) → ss.foldl read r = r.write n.shown
  | .text t, ss, h, r => by
    obtain ⟨rfl, h⟩ := h
    refine foldl_read_plain fun s hs => ?_
    obtain ⟨hk, hd⟩ := h s hs
    exact ⟨hk, by rw [hd]⟩
  | .comment body, ss, h, r => by
    obtain ⟨x, rfl, -⟩ := h
    exact write_nil.symm
  | .template parts, ss, h, r => by
    obtain ⟨x, y, inside, rfl, -, -, hi⟩ := h
    have hin : ∀ s ∈ inside, 0 < s.depths.template := fun s hs => (within_of_parts hi s hs).1
    have hopen : r.read ⟨.templateOpen, x, ⟨0 + 1, link⟩⟩ = r := if_pos (Nat.succ_pos 0)
    rw [List.foldl_cons, List.foldl_append, hopen, foldl_read_inside hin]
    exact write_nil.symm
  | .link first rest, ss, h, r => by
    obtain ⟨x, y, u, v, rfl, -, -, hu, hv⟩ := h
    -- Inside, the text read so far waits around the link until the link closes.
    rw [List.foldl_cons, List.foldl_append, List.foldl_append, foldl_read_tree hu,
      foldl_read_rest hv _ (List.cons_ne_nil _ _)]
    rfl

theorem foldl_read_tree {link : Nat} : {t : List Node} → {ss : List Step} →
    TreeSteps ⟨0, link⟩ t ss → (r : Reading) → ss.foldl read r = r.write (treeShown t)
  | [], ss, h, r => by
    obtain rfl := h
    exact write_nil.symm
  | n :: t, ss, h, r => by
    obtain ⟨u, v, rfl, hu, hv⟩ := h
    rw [List.foldl_append, hu.foldl_read, foldl_read_tree hv, write_write, treeShown]

/-- In a link each further part takes the place of what the link held. -/
theorem foldl_read_rest {link : Nat} : {ts : List (List Node)} → {ss : List Step} →
    RestSteps ⟨0, link⟩ ts ss → (r : Reading) → r.around ≠ [] →
    ss.foldl read r = { r with current := (partsShown ts).getLastD r.current }
  | [], ss, h, r, hr => by
    obtain rfl := h
    rfl
  | t :: ts, ss, h, r, hr => by
    obtain ⟨x, u, v, rfl, -, hu, hv⟩ := h
    have hpipe : r.read ⟨.pipe, x, ⟨0, link⟩⟩ = { r with current := [] } := if_neg hr
    have hmore := foldl_read_rest hv (write ⟨[], r.around⟩ (treeShown t)) hr
    rw [List.foldl_cons, List.foldl_append, hpipe, foldl_read_tree hu, hmore, partsShown,
      List.getLastD_cons]
    rfl

end

/-- What a reader sees of a well-formed tree is what the tree shows, without tags and white space
at the ends. -/
theorem displayText_print {t : Tree} (hw : WellFormedTree t) (hb : t.MarkersOnBoundaries) :
    ∃ r, (∀ r', Stripped t.shown r' ↔ r' = r) ∧ displayText t.print = r.trim := by
  refine ⟨stripTags t.shown, fun _ => stripped_iff, ?_⟩
  rw [displayText, foldl_read_tree (steps_print hw hb)]
  simp [Reading.text, write, empty, Tree.shown]

/-- A link with a link in its last part, tags around and in it, and a template at the end. -/
def taggedSentence : Tree :=
  [.text " at <b>the ".toList,
    .link [.text "Odessa".toList] [[.text "right".toList], [.text "Odessa <i".toList,
      .comment "note".toList, .text ">Film ".toList,
      .link [.text "Festival".toList] [[.text "festival</i>".toList]]]],
    .text "</b> < 5".toList,
    .template [[.text "efn".toList], [.link [.text "note".toList] []]]]

theorem displayText_print_taggedSentence :
    displayText taggedSentence.print = "at the Odessa Film festival < 5".toList := by
  obtain ⟨r, hr, hshown⟩ := displayText_print (t := taggedSentence) (by decide +kernel)
    (Tree.markersOnBoundaries_of_other (by decide +kernel))
  obtain rfl := (hr (stripTags taggedSentence.shown)).mp (stripped_iff.mpr rfl)
  exact hshown.trans (by decide +kernel)

end Wikitext
