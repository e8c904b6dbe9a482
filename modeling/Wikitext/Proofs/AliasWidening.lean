import Wikitext.NameTable
import Wikitext.Proofs.LinkReport

/-! More aliases only add links, and more names for alternative text only take reports away. A link
that began with an alias begins with it still when the new aliases come behind the old ones, or when
none holds a colon: then the alias is what stands before the first colon, whatever the order. -/

namespace Wikitext

namespace MediaLink

/-- Cells that begin with one of the first aliases begin with the same one among the second. -/
def Keeps (aliases aliases' : List Text) : Prop :=
  ∀ cells a, aliasAt? aliases cells = some a → aliasAt? aliases' cells = some a

theorem keeps_append (aliases more : List Text) : Keeps aliases (aliases ++ more) := by
  intro cells a h
  rw [aliasAt?, List.find?_append, ← aliasAt?, h, Option.some_or]

theorem takeWhile_of_colon {a w : Text} (ha : ':' ∉ a) (h : a ++ [':'] <+: w) :
    w.takeWhile (· ≠ ':') = a := by
  obtain ⟨r, rfl⟩ := h
  have hall : ∀ c ∈ a, decide (c ≠ ':') = true := fun c hc => by
    simpa using ne_of_mem_of_not_mem hc ha
  rw [List.append_assoc, List.singleton_append, List.takeWhile_append_of_pos hall,
    List.takeWhile_cons_of_neg (by simp), List.append_nil]

theorem keeps_of_subset {aliases aliases' : List Text} (h : aliases ⊆ aliases')
    (hcolon : ∀ a ∈ aliases', ':' ∉ a) : Keeps aliases aliases' := by
  intro cells a ha
  obtain ⟨hmem, hprefix⟩ := prefix_of_aliasAt? ha
  cases hb : aliasAt? aliases' cells with
  | none =>
    have hno := List.find?_eq_none.mp hb a (h hmem)
    exact absurd (List.find?_some ha) hno
  | some b =>
    obtain ⟨hmem', hprefix'⟩ := prefix_of_aliasAt? hb
    rw [← takeWhile_of_colon (hcolon a (h hmem)) hprefix,
      ← takeWhile_of_colon (hcolon b hmem') hprefix']

theorem aliasAt?_congr {aliases aliases' : List Text} (hcolon : ∀ a ∈ aliases, ':' ∉ a)
    (h : ∀ a, a ∈ aliases ↔ a ∈ aliases') : aliasAt? aliases = aliasAt? aliases' := by
  have hcolon' : ∀ a ∈ aliases', ':' ∉ a := fun a ha => hcolon a ((h a).mpr ha)
  funext cells
  apply Option.ext
  intro a
  exact ⟨keeps_of_subset (fun a => (h a).mp) hcolon' cells a,
    keeps_of_subset (fun a => (h a).mpr) hcolon cells a⟩

/-- Whether no parameter of a link assigns one of the names. -/
def lacks (names : List Text) (l : MediaLink) : Bool :=
  !l.params.any (isAltParam names)

theorem lacks_iff {names : List Text} {l : MediaLink} :
    l.lacks names = true ↔ ∀ name ∈ names, ∀ p ∈ l.params, isAltParam [name] p = false := by
  simp only [lacks, isAltParam, Bool.not_eq_true', List.any_eq_false, Bool.not_eq_true,
    List.any_cons, List.any_nil, Bool.or_false]
  exact ⟨fun h name hn p hp => h p hp name hn, fun h p hp name hn => h name hn p hp⟩

theorem lacks_eq_and {names more names' : List Text}
    (h : ∀ name, name ∈ names' ↔ name ∈ names ∨ name ∈ more) (l : MediaLink) :
    l.lacks names' = (l.lacks names && l.lacks more) := by
  rw [Bool.eq_iff_iff, Bool.and_eq_true, lacks_iff, lacks_iff, lacks_iff]
  simp only [h, or_imp, forall_and]

end MediaLink

open MediaLink

namespace Document

variable {t : Text} {aliases aliases' : List Text}

/-- Whether one of the aliases stands behind the opener of a link. -/
def opensWith (d : Document) (aliases : List Text) (l : MediaLink) : Bool :=
  (d.aliasBehind? aliases (l.bytes.start + 2)).isSome

theorem opensWith_media? (ha : ∀ a ∈ aliases, Clean a) {l : OuterLink}
    (hl : l ∈ (ofText t).outerLinks) {m : MediaLink}
    (hm : l.media? (ofText t) aliases' = some m) :
    (ofText t).opensWith aliases m = (l.alias? aliases).isSome := by
  obtain ⟨_, _, _, _, _, _, _, hp⟩ := exists_placed_of_mem hl
  have hstop : l.ends.1.stop = l.start + 2 := by
    rw [OuterLink.ends, hp.written.opening]
    rfl
  rw [opensWith, OuterLink.bytes_of_media? hm, hp.alias?_eq ha, hstop]
  rfl

/-- Of the links found with the second aliases those remain that begin with one of the first. -/
theorem filter_media? (ha : ∀ a ∈ aliases, Clean a) (hkeeps : Keeps aliases aliases')
    {l : OuterLink} (hl : l ∈ (ofText t).outerLinks) :
    (l.media? (ofText t) aliases').filter ((ofText t).opensWith aliases) =
      l.media? (ofText t) aliases := by
  cases halias : l.alias? aliases with
  | none =>
    have hnone : l.media? (ofText t) aliases = none := by
      rw [OuterLink.media?, halias, Option.map_none]
    rw [hnone, Option.filter_eq_none_iff]
    intro m hm
    rw [opensWith_media? ha hl hm, halias]
    simp
  | some a =>
    have hsame : l.media? (ofText t) aliases' = l.media? (ofText t) aliases := by
      have halias' : l.alias? aliases' = some a := hkeeps _ a halias
      rw [OuterLink.media?, OuterLink.media?, halias, halias']
    apply Option.ext
    intro m
    rw [Option.filter_eq_some_iff, hsame]
    refine and_iff_left_of_imp fun hm => ?_
    rw [opensWith_media? ha hl hm, halias]
    rfl

theorem mediaLinks_of_keeps (ha : ∀ a ∈ aliases, Clean a) (ha' : ∀ a ∈ aliases', Clean a)
    (hkeeps : Keeps aliases aliases') (t : Text) :
    ∃ links, (ofText t).mediaLinks aliases' = .ok links ∧
      (ofText t).mediaLinks aliases = .ok (links.filter ((ofText t).opensWith aliases)) := by
  refine ⟨_, mediaLinks_eq ha' t, ?_⟩
  rw [mediaLinks_eq ha t, List.filter_filterMap]
  apply congrArg Except.ok
  apply List.filterMap_congr
  intro l hl
  rw [filter_media? ha hkeeps hl]

/-- A link as it is reported when it lacks alternative text. -/
def missingOf (d : Document) (l : MediaLink) : MissingAlt :=
  ⟨d.text.slice l.bytes.start l.bytes.stop, l.file, l.span⟩

theorem missingAlt_eq {d : Document} {links : List MediaLink}
    (h : d.mediaLinks aliases = .ok links) (names : List Text) :
    d.missingAlt aliases names = .ok ((links.filter (lacks names)).map d.missingOf) := by
  rw [missingAlt, h]
  rfl

theorem mediaLinks_congr (hcolon : ∀ a ∈ aliases, ':' ∉ a)
    (h : ∀ a, a ∈ aliases ↔ a ∈ aliases') (d : Document) :
    d.mediaLinks aliases' = d.mediaLinks aliases := by
  have houter : MediaLink.ofOuter? d aliases' = MediaLink.ofOuter? d aliases := by
    funext l
    rw [ofOuter?, ofOuter?, aliasAt?_congr hcolon h]
  rw [mediaLinks, mediaLinks, houter]

/-- What further aliases and further names change of the reports on a document. -/
structure Widened (d : Document) (aliases more names further : List Text)
    (links : List MediaLink) : Prop where
  wide : d.mediaLinks (aliases ++ more) = .ok links
  narrow : d.mediaLinks aliases = .ok (links.filter (d.opensWith aliases))
  missing : d.missingAlt aliases names =
    .ok (((links.filter (d.opensWith aliases)).filter (lacks names)).map d.missingOf)
  missingFurther : d.missingAlt aliases (names ++ further) =
    .ok ((((links.filter (d.opensWith aliases)).filter (lacks names)).filter
      (lacks further)).map d.missingOf)

theorem exists_widened {more : List Text} (ha : ∀ a ∈ aliases ++ more, Clean a)
    (names further : List Text) (t : Text) :
    ∃ links, (ofText t).Widened aliases more names further links := by
  have hfirst : ∀ a ∈ aliases, Clean a := fun a h => ha a (List.mem_append_left more h)
  obtain ⟨links, hwide, hnarrow⟩ := mediaLinks_of_keeps hfirst ha (keeps_append aliases more) t
  have hboth : lacks (names ++ further) = fun l => lacks further l && lacks names l := by
    funext l
    rw [lacks_eq_and (fun _ => List.mem_append) l, Bool.and_comm]
  refine ⟨links, hwide, hnarrow, missingAlt_eq hnarrow names, ?_⟩
  rw [missingAlt_eq hnarrow, hboth, List.filter_filter (p := lacks further)]

end Document

namespace NameTable

theorem prefix_join (xs ys : List Text) : xs <+: join xs ys := by
  induction ys generalizing xs with
  | nil => exact List.prefix_rfl
  | cons y ys ih =>
    rw [join, List.foldl_cons, ← join]
    split
    · exact ih xs
    · exact (List.prefix_append xs [y]).trans (ih _)

theorem mem_join {xs ys : List Text} {a : Text} : a ∈ join xs ys ↔ a ∈ xs ∨ a ∈ ys := by
  induction ys generalizing xs with
  | nil => simp [join]
  | cons y ys ih =>
    rw [join, List.foldl_cons, ← join]
    split
    · rename_i hmem
      rw [List.contains_iff_mem] at hmem
      rw [ih, List.mem_cons]
      constructor
      · exact Or.imp_right .inr
      · rintro (h | rfl | h)
        · exact .inl h
        · exact .inl hmem
        · exact .inr h
    · rw [ih, List.mem_append, List.mem_singleton, List.mem_cons, or_assoc]

theorem mediaLinks_extend {a b : NameTable} (ha : ∀ n ∈ a.namespaces ++ b.namespaces, Clean n)
    (t : Text) : ∃ links, (a.extend b).mediaLinks (.ofText t) = .ok links ∧
      a.mediaLinks (.ofText t) =
        .ok (links.filter ((Document.ofText t).opensWith a.namespaces)) := by
  obtain ⟨more, hmore⟩ := prefix_join a.namespaces b.namespaces
  have hclean : ∀ n ∈ join a.namespaces b.namespaces, Clean n := by
    intro n hn
    exact ha n (List.mem_append.mpr (mem_join.mp hn))
  rw [mediaLinks, mediaLinks, extend]
  refine Document.mediaLinks_of_keeps (fun n hn => ha n (List.mem_append_left _ hn)) hclean ?_ t
  rw [← hmore]
  exact keeps_append a.namespaces more

/-- The third table knows the names of the first and of the second, in any order. -/
structure Joins (a more b : NameTable) : Prop where
  namespaces : ∀ n, n ∈ b.namespaces ↔ n ∈ a.namespaces ∨ n ∈ more.namespaces
  altParams : ∀ n, n ∈ b.altParams ↔ n ∈ a.altParams ∨ n ∈ more.altParams
  magicWords : b.magicWords = a.magicWords

theorem Joins.exists_links {a more b : NameTable} (h : a.Joins more b)
    (hclean : ∀ n ∈ a.namespaces ++ more.namespaces, Clean n ∧ ':' ∉ n) (t : Text) :
    ∃ links, b.mediaLinks (.ofText t) = .ok links ∧
      a.mediaLinks (.ofText t) =
        .ok (links.filter ((Document.ofText t).opensWith a.namespaces)) := by
  have hb : ∀ n ∈ b.namespaces, Clean n ∧ ':' ∉ n := fun n hn =>
    hclean n (List.mem_append.mpr ((h.namespaces n).mp hn))
  exact Document.mediaLinks_of_keeps (fun n hn => (hclean n (List.mem_append_left _ hn)).1)
    (fun n hn => (hb n hn).1)
    (keeps_of_subset (fun n hn => (h.namespaces n).mpr (.inl hn)) fun n hn => (hb n hn).2) t

end NameTable

end Wikitext
