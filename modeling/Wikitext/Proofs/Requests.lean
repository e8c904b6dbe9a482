import Mathlib.Data.List.Nodup
import Wikitext.Proofs.ArgumentReading

/-! What the arguments ask for when one option is left out. Without `--write` the same edit is asked
for, only printed. Without one `--namespace` or `--alt-param` the same command is asked for with one
name less, unless the option made those in front of the command's name count for nothing. -/

namespace Wikitext.Command

open Level Reading

/-- The options in front of the name of the command. -/
def Level.outer : Level := ⟨OptionSpec.shared, 0, true⟩

/-- The options and operands behind the name of a command. -/
def Level.inner (options : List OptionSpec) (operands : Nat) : Level :=
  ⟨OptionSpec.shared ++ options, operands, false⟩

theorem Level.distinct_of_nodup {level : Level} (h : (level.options.map (·.name)).Nodup) :
    level.Distinct :=
  fun _ ho _ ho' he => List.inj_on_of_nodup_map h ho ho' he

theorem distinct_outer : outer.Distinct :=
  distinct_of_nodup (by decide)

theorem distinct_inner {name : String} {options : List OptionSpec} {operands : Nat}
    (h : Action.spec? name = some (options, operands)) :
    (Level.inner options operands).Distinct := by
  apply distinct_of_nodup
  unfold Action.spec? at h
  split at h <;> cases h <;> decide

theorem finds_namespace (options : List OptionSpec) (operands : Nat) :
    (Level.inner options operands).Finds (.list "namespace") :=
  ⟨rfl, by decide, by decide⟩

theorem finds_altParam (options : List OptionSpec) (operands : Nat) :
    (Level.inner options operands).Finds (.list "alt-param") :=
  ⟨rfl, by decide, by decide⟩

namespace Request

variable {r m s : Reading} {arg cmd : String} {args before after : List String}
  {shared : Shared} {action : Action}

theorem ofArgumentsFrom?_command (hp : r.pending = none) (hl : r.literal = false)
    (hc : isOption cmd = false) :
    ofArgumentsFrom? r (cmd :: after) = ofCommand? r cmd after := by
  simp [ofArgumentsFrom?, hp, hl, hc]

theorem ofArgumentsFrom?_reads (h : outer.Reads r before m) (rest : List String) :
    ofArgumentsFrom? r (before ++ rest) = ofArgumentsFrom? m rest := by
  induction h with
  | nil => rfl
  | @cons r m s arg args hread h ih =>
    have hno : (r.pending.isNone && !r.literal && !isOption arg) = false := by
      -- A first operand would be the name of the command.
      rw [Bool.eq_false_iff]
      intro hcommand
      simp only [Bool.and_eq_true, Option.isNone_iff_eq_none, Bool.not_eq_true'] at hcommand
      obtain ⟨⟨hp, hl⟩, hoption⟩ := hcommand
      simp [Level.read?, hp, hl, hoption, outer, addOperand?] at hread
    rw [List.cons_append, ofArgumentsFrom?, hno, if_neg Bool.false_ne_true]
    rw [show (Level.mk OptionSpec.shared 0 true).read? r arg = _ from hread]
    exact ih

theorem ofArguments?_command (h : outer.Reads .empty before m) (hp : m.pending = none)
    (hl : m.literal = false) (hc : isOption cmd = false) (after : List String) :
    ofArguments? (before ++ cmd :: after) = ofCommand? m cmd after := by
  rw [ofArguments?, ofArgumentsFrom?_reads h, ofArgumentsFrom?_command hp hl hc]

theorem ofArguments?_options (h : outer.Reads .empty before m) (hp : m.pending = none) :
    ofArguments? before = some (.run (.ofReadings m .empty) none) := by
  have hall := ofArgumentsFrom?_reads h []
  rw [List.append_nil] at hall
  rw [ofArguments?, hall, ofArgumentsFrom?, hp]
  rfl

theorem exists_command (h : ofArgumentsFrom? r args = some (.run shared (some action))) :
    ∃ before cmd after m, args = before ++ cmd :: after ∧ outer.Reads r before m ∧
      m.pending = none ∧ m.literal = false ∧ isOption cmd = false ∧
      ofCommand? m cmd after = some (.run shared (some action)) := by
  induction args generalizing r with
  | nil =>
    rw [ofArgumentsFrom?] at h
    split at h <;> cases h
  | cons arg args ih =>
    rw [ofArgumentsFrom?] at h
    split at h
    · rename_i hcommand
      simp only [Bool.and_eq_true, Option.isNone_iff_eq_none, Bool.not_eq_true'] at hcommand
      exact ⟨[], arg, args, r, rfl, .nil, hcommand.1.1, hcommand.1.2, hcommand.2, h⟩
    · split at h
      · cases h
      · cases h
      · cases h
      · rename_i m hm
        obtain ⟨before, cmd, after, m', rfl, hreads, hrest⟩ := ih h
        exact ⟨arg :: before, cmd, after, m', rfl, .cons hm hreads, hrest⟩

theorem exists_topic {request : Request} (h : ofHelp? args = some request) :
    ∃ topic, request = .help topic := by
  unfold ofHelp? at h
  split at h
  · cases h
    exact ⟨_, rfl⟩
  · split at h
    · cases h
      exact ⟨_, rfl⟩
    · cases h
  · cases h

theorem ofCommand?_eq_run : ofCommand? m cmd after = some (.run shared (some action)) ↔
    cmd ≠ "help" ∧ ∃ options operands s, Action.spec? cmd = some (options, operands) ∧
      (Level.inner options operands).Reads .empty after s ∧ s.pending = none ∧
      Action.ofReading? cmd s = some action ∧ shared = Shared.ofReadings m s := by
  rw [ofCommand?]
  by_cases hcmd : cmd = "help"
  · rw [if_pos hcmd]
    refine iff_of_false (fun h => ?_) fun h => h.1 hcmd
    obtain ⟨topic, htopic⟩ := exists_topic h
    cases htopic
  · rw [if_neg hcmd]
    simp only [ne_eq, hcmd, not_false_eq_true, true_and]
    cases hspec : Action.spec? cmd with
    | none => simp
    | some spec =>
      obtain ⟨options, operands⟩ := spec
      constructor
      · intro h
        simp only at h
        split at h
        · cases h
        · cases h
        · cases h
        · rename_i s hs
          obtain ⟨a, ha, hrun⟩ := Option.map_eq_some_iff.mp h
          cases hrun
          obtain ⟨hreads, hpending⟩ := readAll?_eq_some.mp hs
          exact ⟨options, operands, s, rfl, hreads, hpending, ha, rfl⟩
      · rintro ⟨_, _, s, hsame, hreads, hpending, ha, rfl⟩
        cases hsame
        have hall := readAll?_eq_some.mpr ⟨hreads, hpending⟩
        change (Level.inner options operands).readAll? .empty after = _ at hall
        rw [Level.inner] at hall
        simp only [hall, ha, Option.map_some]

end Request

namespace Action

/-- What is to be done with the edited article, when an action edits one. -/
def edit? : Action → Option EditOptions
  | .insertImage _ _ edit | .insertAlt _ _ _ _ edit => some edit
  | _ => none

/-- The same action with the edited article printed. -/
def printed : Action → Action
  | .insertImage file markup edit => .insertImage file markup { edit with write := false }
  | .insertAlt file markup words alt edit =>
    .insertAlt file markup words alt { edit with write := false }
  | action => action

theorem ofReading?_insertImage {cmd file markup : String} {s : Reading} {e : EditOptions} :
    ofReading? cmd s = some (.insertImage file markup e) ↔ cmd = "insert-image" ∧
      s.operands.head? = some file ∧ s.value? "markup" = some markup ∧ edit s = e := by
  unfold ofReading?
  split <;> simp_all [Option.bind_eq_some_iff]

theorem ofReading?_insertAlt {cmd file markup words alt : String} {s : Reading}
    {e : EditOptions} : ofReading? cmd s = some (.insertAlt file markup words alt e) ↔
      cmd = "insert-alt" ∧ s.operands.head? = some file ∧ s.value? "markup" = some markup ∧
      s.value? "caption" = some words ∧ s.value? "alt" = some alt ∧ edit s = e := by
  unfold ofReading?
  split <;> simp_all [Option.bind_eq_some_iff]

def writeFlag : OptionSpec := .flag "write" none

theorem finds_writeFlag {cmd : String} {s : Reading} {action : Action} {e : EditOptions}
    {options : List OptionSpec} {operands : Nat} (ha : ofReading? cmd s = some action)
    (he : action.edit? = some e) (hspec : spec? cmd = some (options, operands)) :
    (Level.inner options operands).Finds writeFlag ∧ s.has "write" = e.write := by
  cases action with
  | insertImage =>
    cases he
    obtain ⟨rfl, -, -, rfl⟩ := ofReading?_insertImage.mp ha
    cases hspec
    exact ⟨⟨rfl, by decide, by decide⟩, rfl⟩
  | insertAlt =>
    cases he
    obtain ⟨rfl, -, -, -, -, rfl⟩ := ofReading?_insertAlt.mp ha
    cases hspec
    exact ⟨⟨rfl, by decide, by decide⟩, rfl⟩
  | _ => cases he

theorem ofReading?_printed {cmd v : String} {s s' : Reading} {action : Action} {e : EditOptions}
    (h : s.Extra "write" v s') (hno : s.has "write" = false)
    (ha : ofReading? cmd s' = some action) (he : action.edit? = some e) :
    ofReading? cmd s = some action.printed := by
  have hedit : edit s = { edit s' with write := false } := by
    have hdiff : s'.has "diff" = s.has "diff" := h.has_eq (by decide)
    rw [edit, edit, hno, hdiff]
  have hvalue {name : String} (hne : name ≠ "write") : s.value? name = s'.value? name :=
    (h.value?_eq hne).symm
  cases action with
  | insertImage =>
    obtain ⟨rfl, hfile, hmarkup, rfl⟩ := ofReading?_insertImage.mp ha
    exact ofReading?_insertImage.mpr ⟨rfl, h.operands ▸ hfile, (hvalue (by decide)).trans hmarkup,
      hedit⟩
  | insertAlt =>
    obtain ⟨rfl, hfile, hmarkup, hwords, halt, rfl⟩ := ofReading?_insertAlt.mp ha
    exact ofReading?_insertAlt.mpr ⟨rfl, h.operands ▸ hfile, (hvalue (by decide)).trans hmarkup,
      (hvalue (by decide)).trans hwords, (hvalue (by decide)).trans halt, hedit⟩
  | _ => cases he

end Action

namespace Request

theorem read?_write_outer (r : Reading) : outer.read? r "--write" = none := by
  cases hl : r.literal with
  | true => simp [Level.read?, hl, addOperand?, outer]
  | false =>
    cases hp : r.pending with
    | some o => exact read?_of_pending hp (by decide) hl
    | none =>
      have hlong : outer.read? r "--write" = outer.readLong? r "write".toList :=
        read?_long hl hp (by decide) (by decide)
      rw [hlong]
      rfl

theorem write_notMem_outer {r m : Reading} {before : List String} (h : outer.Reads r before m) :
    "--write" ∉ before := by
  induction h with
  | nil => simp
  | cons hread _ ih =>
    refine List.not_mem_cons_of_ne_of_not_mem ?_ ih
    rintro rfl
    rw [read?_write_outer] at hread
    cases hread

/-- An option that all commands lack adds nothing to what they share. -/
theorem ofReadings_of_extra {name v : String} {m s s' : Reading} (h : s.Extra name v s')
    (hname : name ∉ OptionSpec.shared.map (·.name)) :
    Shared.ofReadings m s = Shared.ofReadings m s' := by
  have hne {other : String} (hother : other ∈ OptionSpec.shared.map (·.name)) : other ≠ name := by
    rintro rfl
    exact hname hother
  have hpath : s'.value? "path" = s.value? "path" := h.value?_eq (hne (by decide))
  have hlocale : s'.value? "locale" = s.value? "locale" := h.value?_eq (hne (by decide))
  have hverbose : s'.has "verbose" = s.has "verbose" := h.has_eq (hne (by decide))
  have hcolor : s'.has "no-color" = s.has "no-color" := h.has_eq (hne (by decide))
  have hspaces : s'.values "namespace" = s.values "namespace" := h.values_eq (hne (by decide))
  have hnames : s'.values "alt-param" = s.values "alt-param" := h.values_eq (hne (by decide))
  simp only [Shared.ofReadings, hpath, hlocale, hverbose, hcolor, hspaces, hnames]

theorem ofArguments?_erase_write {args : List String} {shared : Shared} {action : Action}
    {e : EditOptions} (h : ofArguments? args = some (.run shared (some action)))
    (he : action.edit? = some e) (hw : e.write = true) :
    ofArguments? (args.erase "--write") = some (.run shared (some action.printed)) := by
  obtain ⟨before, cmd, after, m, rfl, hbefore, hp, hl, hcmd, hcommand⟩ := exists_command h
  obtain ⟨hhelp, options, operands, s', hspec, hreads, hp', ha, rfl⟩ :=
    ofCommand?_eq_run.mp hcommand
  obtain ⟨hfinds, hhas⟩ := Action.finds_writeFlag ha he hspec
  have hd := distinct_inner hspec
  have hsound := sound_empty (Level.inner options operands)
  have hmem : Action.writeFlag ∈ (Level.inner options operands).options :=
    List.mem_of_find?_eq_some hfinds.find?_eq
  obtain ⟨pre, post, rfl, hpre, hdash⟩ := Reads.exists_cut hd hsound rfl hmem rfl rfl rfl
    (hhas.trans hw) hreads
  obtain ⟨s, hs, hextra⟩ := Reads.leave_out hd hsound rfl hfinds hdash (.bare rfl) hreads
  have hno : s.has "write" = false :=
    hextra.has_eq_false ((hsound.reads hd hreads).once _ hmem rfl)
  have hwrite : "--" ++ Action.writeFlag.name = "--write" := by decide
  rw [hwrite] at hpre
  have hargs : (before ++ cmd :: (pre ++ "--write" :: post)).erase "--write" =
      before ++ cmd :: (pre ++ post) := by
    have hne : cmd ≠ "--write" := by
      rintro rfl
      exact absurd hcmd (by decide)
    rw [List.erase_append_right _ (write_notMem_outer hbefore),
      List.erase_cons_tail (by simpa using hne), List.erase_append_right _ hpre,
      List.erase_cons_head]
  rw [hwrite, hargs, ofArguments?_command hbefore hp hl hcmd]
  refine ofCommand?_eq_run.mpr ⟨hhelp, options, operands, s, hspec, hs, ?_, ?_, ?_⟩
  · rw [← hextra.pending, hp']
  · exact Action.ofReading?_printed hextra hno ha he
  · exact (ofReadings_of_extra hextra (by decide)).symm

end Request

end Wikitext.Command
