import Wikitext.Proofs.AliasWidening
import Wikitext.Proofs.ArticleReading
import Wikitext.Proofs.Requests

/-! One more `--namespace` or `--alt-param` among the arguments. The same command is asked for, and
its name is added to those given, so that no link reported without it is hidden. Only where it
stands behind the command's name and all others stand in front of it do the others count for
nothing. -/

namespace Wikitext.Command

open Level

/-- The options that add to the name table. -/
inductive Naming where
  | namespaces
  | altParams

namespace Naming

def option : Naming → OptionSpec
  | namespaces => .list "namespace"
  | altParams => .list "alt-param"

def names : Naming → Shared → List String
  | namespaces, shared => shared.namespaces
  | altParams, shared => shared.altParams

def setNames : Naming → List String → Shared → Shared
  | namespaces, names, shared => { shared with namespaces := names }
  | altParams, names, shared => { shared with altParams := names }

/-- The table that knows one name. -/
def table : Naming → String → NameTable
  | namespaces, v => ⟨[v.toList], [], []⟩
  | altParams, v => ⟨[], [v.toList], []⟩

variable {k : Naming} {v cmd : String} {m m' s s' : Reading}

theorem finds_outer (k : Naming) : outer.Finds k.option := by
  cases k <;> exact ⟨rfl, by decide, by decide⟩

theorem finds_inner (k : Naming) (options : List OptionSpec) (operands : Nat) :
    (Level.inner options operands).Finds k.option := by
  cases k
  · exact finds_namespace options operands
  · exact finds_altParam options operands

theorem names_ofReadings (k : Naming) (m s : Reading) :
    k.names (.ofReadings m s) =
      if s.values k.option.name = [] then m.values k.option.name else s.values k.option.name := by
  cases k <;> rfl

theorem setNames_self (k : Naming) (shared : Shared) :
    k.setNames (k.names shared) shared = shared := by
  cases k <;> rfl

/-- An option behind the command's name changes nothing else that all commands share. -/
theorem ofReadings_behind (h : s.Extra k.option.name v s') (m : Reading) :
    Shared.ofReadings m s' =
      k.setNames (k.names (.ofReadings m s')) (Shared.ofReadings m s) := by
  cases k <;>
    simp (disch := decide) only [Shared.ofReadings, setNames, names, h.value?_eq, h.has_eq,
      h.values_eq]

theorem ofReadings_front (h : m.Extra k.option.name v m') (s : Reading) :
    Shared.ofReadings m' s =
      k.setNames (k.names (.ofReadings m' s)) (Shared.ofReadings m s) := by
  cases k <;>
    simp (disch := decide) only [Shared.ofReadings, setNames, names, h.value?_eq, h.has_eq,
      h.values_eq]

theorem ofReading?_of_extra (h : s.Extra k.option.name v s') :
    Action.ofReading? cmd s' = Action.ofReading? cmd s := by
  cases k <;>
    simp (disch := decide) only [Action.ofReading?, Action.format, Action.edit, h.operands,
      h.value?_eq, h.has_eq]

/-- The names that are given, with one more behind some of them. -/
structure Added (k : Naming) (v : String) (shared shared' : Shared) : Prop where
  among : ∃ earlier later, k.names shared = earlier ++ later ∧
    shared' = k.setNames (earlier ++ v :: later) shared

/-- The only name behind the command's name; the others stand in front of it and are lost. -/
structure Alone (k : Naming) (v : String) (pre : List String) (shared shared' : Shared) :
    Prop where
  behind : ∃ front cmd between lost, pre = front ++ cmd :: between ∧
    Request.ofArguments? front = some (.run lost none) ∧ k.names lost ≠ [] ∧
    k.names shared = k.names lost
  only : shared' = k.setNames [v] shared

theorem added_or_same (h : m.Extra k.option.name v m') (s : Reading) :
    Shared.ofReadings m' s = Shared.ofReadings m s ∨
      k.Added v (.ofReadings m s) (.ofReadings m' s) := by
  obtain ⟨earlier, later, hm, hm'⟩ := h.exists_values
  have hnames := names_ofReadings k m s
  have hnames' := names_ofReadings k m' s
  have hset := ofReadings_front h s
  by_cases hs : s.values k.option.name = []
  · rw [if_pos hs, hm] at hnames
    rw [if_pos hs, hm'] at hnames'
    rw [hnames'] at hset
    exact .inr ⟨earlier, later, hnames, hset⟩
  · rw [if_neg hs] at hnames hnames'
    rw [hnames', ← hnames, setNames_self] at hset
    exact .inl hset

theorem added_or_alone (h : s.Extra k.option.name v s') {front between : List String}
    (hfront : outer.Reads .empty front m) (hp : m.pending = none) :
    k.Added v (.ofReadings m s) (.ofReadings m s') ∨
      k.Alone v (front ++ cmd :: between) (.ofReadings m s) (.ofReadings m s') := by
  obtain ⟨earlier, later, hs, hs'⟩ := h.exists_values
  have hnames := names_ofReadings k m s
  have hnames' := names_ofReadings k m s'
  have hset := ofReadings_behind h m
  rw [hs', if_neg (by simp)] at hnames'
  rw [hnames'] at hset
  by_cases hnone : s.values k.option.name = []
  · rw [if_pos hnone] at hnames
    rw [hnone] at hs
    obtain ⟨rfl, rfl⟩ := List.append_eq_nil_iff.mp hs.symm
    by_cases hlost : m.values k.option.name = []
    · exact .inl ⟨[], [], hnames.trans hlost, hset⟩
    · have hlostNames : k.names (.ofReadings m .empty) = m.values k.option.name :=
        names_ofReadings k m .empty
      exact .inr ⟨⟨front, cmd, between, _, rfl, Request.ofArguments?_options hfront hp,
        hlostNames ▸ hlost, hnames.trans hlostNames.symm⟩, hset⟩
  · rw [if_neg hnone] at hnames
    exact .inl ⟨earlier, later, hnames.trans hs, hset⟩

end Naming

theorem Level.Given.isOption_head {o : OptionSpec} {v arg : String} {rest : List String}
    (h : Given o v (arg :: rest)) : isOption arg = true := by
  cases h with
  | bare | apart => exact isOption_long (toList_name o)
  | attached => exact isOption_long (toList_attached o v)

/-- No option ends at the name of a command while it waits for its value. -/
theorem Level.Given.prefix_of_reads {level : Level} {o : OptionSpec} {v cmd : String}
    {flag args rest : List String} {r m : Reading} (hflag : Given o v flag)
    (ho : level.Finds o) (hl : r.literal = false) (h : level.Reads r args m)
    (hp : m.pending = none) (hcmd : isOption cmd = false) :
    flag ≠ args ++ cmd :: rest := by
  rintro rfl
  cases h with
  | nil =>
    rw [List.nil_append] at hflag
    rw [hflag.isOption_head] at hcmd
    cases hcmd
  | @cons _ _ _ arg args hread h =>
    generalize hargs : args ++ cmd :: rest = tail at hflag
    rw [List.cons_append, hargs] at hflag
    cases hflag with
    | bare => simp at hargs
    | attached => simp at hargs
    | apart htakes =>
      rw [read?_name ho hl (pending_eq_none hl (toList_name o) hread), if_pos htakes] at hread
      cases hread
      cases h with
      | nil => cases hp
      | cons => simp at hargs

/-- A list cut in two ways: the second cut lies behind the first or in front of it. -/
theorem cut_cases {α : Type} {xs ys zs ws : List α} {c : α} (h : xs ++ ys = zs ++ c :: ws) :
    (∃ rest, zs = xs ++ rest ∧ ys = rest ++ c :: ws) ∨
      ∃ between, xs = zs ++ c :: between ∧ ws = between ++ ys := by
  rcases List.append_eq_append_iff.mp h with h | ⟨rest, rfl, hrest⟩
  · exact .inl h
  · rcases List.cons_eq_append_iff.mp hrest with ⟨rfl, rfl⟩ | ⟨between, rfl, rfl⟩
    · exact .inl ⟨[], by simp, rfl⟩
    · exact .inr ⟨between, rfl, rfl⟩

namespace Request

variable {k : Naming} {v : String} {flag pre post : List String} {shared' : Shared}
  {action : Action}

/-- Without the option the same command is asked for, and the names are those given less one, or the
same, or those that the option made count for nothing. -/
theorem exists_leave_out (hflag : Given k.option v flag) (hpre : "--" ∉ pre)
    (h : ofArguments? (pre ++ (flag ++ post)) = some (.run shared' (some action))) :
    ∃ shared, ofArguments? (pre ++ post) = some (.run shared (some action)) ∧
      (shared' = shared ∨ k.Added v shared shared' ∨ k.Alone v pre shared shared') := by
  obtain ⟨front, cmd, behind, m', hargs, hfront, hp, hl, hcmd, hcommand⟩ := exists_command h
  obtain ⟨hhelp, options, operands, s', hspec, hbehind, hp', ha, rfl⟩ :=
    ofCommand?_eq_run.mp hcommand
  rcases cut_cases hargs with ⟨rest, rfl, hrest⟩ | ⟨between, rfl, rfl⟩
  · -- The option stands in front of the command's name.
    have hd := distinct_outer
    obtain ⟨m₀, hpreReads, hrestReads⟩ := reads_append.mp hfront
    have hl₀ := Reads.literal_eq hd (sound_empty outer) rfl hpre hpreReads
    rcases cut_cases hrest with ⟨rest', rfl, rfl⟩ | ⟨between, hno, -⟩
    · obtain ⟨m, hm, hextra⟩ := Reads.leave_out hd (sound_empty outer) rfl k.finds_outer hpre hflag
        hfront
      refine ⟨.ofReadings m s', ?_, (Naming.added_or_same hextra s').imp_right .inl⟩
      rw [← List.append_assoc, ofArguments?_command hm (hextra.pending ▸ hp) (hextra.literal ▸ hl)
        hcmd]
      exact ofCommand?_eq_run.mpr ⟨hhelp, options, operands, s', hspec, hbehind, hp', ha, rfl⟩
    · exact absurd hno (hflag.prefix_of_reads k.finds_outer hl₀ hrestReads hp hcmd)
  · have hbetween : "--" ∉ between := fun hmem => hpre (by simp [hmem])
    obtain ⟨s, hs, hextra⟩ := Reads.leave_out (distinct_inner hspec) (sound_empty _) rfl
      (k.finds_inner options operands) hbetween hflag hbehind
    refine ⟨.ofReadings m' s, ?_, .inr (Naming.added_or_alone hextra hfront hp)⟩
    rw [List.append_assoc, List.cons_append, ofArguments?_command hfront hp hl hcmd]
    exact ofCommand?_eq_run.mpr ⟨hhelp, options, operands, s, hspec, hs, hextra.pending ▸ hp',
      (Naming.ofReading?_of_extra hextra) ▸ ha, rfl⟩

end Request

namespace Shared

def localeIn (shared : Shared) (settings : Settings) : String :=
  (shared.locale <|> settings.defaultLocale).getD fallbackLocale

/-- The names that the arguments add to the name table. -/
def table (shared : Shared) : NameTable :=
  ⟨shared.namespaces.map String.toList, shared.altParams.map String.toList, []⟩

end Shared

section

variable {w : World} {k : Naming} {v file : String} {shared shared' : Shared}
  {session session' : Session} {t : Text}

theorem Session.open_eq_ok : Session.open w shared = .ok session ↔ ∃ loaded base,
    Settings.load w.look shared.path = .ok loaded ∧
    baseTable (loaded.getD .default) (shared.localeIn (loaded.getD .default)) shared.namespaces =
      .ok base ∧
    session = ⟨loaded.getD .default, shared.localeIn (loaded.getD .default),
      base.extend shared.table⟩ := by
  constructor
  · intro h
    obtain ⟨loaded, hloaded, h⟩ := exists_of_bind h
    obtain ⟨base, hbase, h⟩ := exists_of_bind h
    cases h
    exact ⟨loaded, base, hloaded, hbase, rfl⟩
  · rintro ⟨loaded, base, hloaded, hbase, rfl⟩
    rw [Session.open, hloaded]
    change (baseTable (loaded.getD .default) (shared.localeIn (loaded.getD .default))
      shared.namespaces).bind _ = _
    rw [hbase]
    rfl

/-- A language that has a name table has one still when more namespaces are given. -/
theorem baseTable_eq_ok {settings : Settings} {locale : String} {names names' : List String}
    {base : NameTable} (h : baseTable settings locale names = .ok base)
    (hne : names ≠ [] → names' ≠ []) : baseTable settings locale names' = .ok base := by
  rw [baseTable] at h ⊢
  cases htable : settings.table locale with
  | ok t =>
    rw [htable] at h
    exact h
  | error f =>
    rw [htable] at h
    dsimp only at h ⊢
    split at h
    · rename_i hfallback
      rw [if_pos hfallback, h]
    · rename_i hfallback
      split at h
      · rename_i hnames
        rw [if_neg hfallback, if_pos (hne hnames), h]
      · cases h

namespace Naming

theorem mem_join_among {names earlier later : List String} (h : names = earlier ++ later)
    (base : List Text) (n : Text) :
    n ∈ NameTable.join base ((earlier ++ v :: later).map String.toList) ↔
      n ∈ NameTable.join base (names.map String.toList) ∨ n ∈ [v.toList] := by
  simp only [h, NameTable.mem_join, List.map_append, List.map_cons, List.mem_append, List.mem_cons]
  tauto

theorem joins_extend (h : k.Added v shared shared') (base : NameTable) :
    (base.extend shared.table).Joins (k.table v) (base.extend shared'.table) := by
  obtain ⟨earlier, later, hnames, rfl⟩ := h.among
  cases k with
  | namespaces =>
    refine ⟨mem_join_among hnames base.namespaces, fun n => ?_, rfl⟩
    simp [NameTable.extend, Shared.table, setNames, table]
  | altParams =>
    refine ⟨fun n => ?_, mem_join_among hnames base.altParams, rfl⟩
    simp [NameTable.extend, Shared.table, setNames, table]

theorem exists_open (h : k.Added v shared shared') (hopen : Session.open w shared = .ok session) :
    ∃ session', Session.open w shared' = .ok session' ∧ session'.settings = session.settings ∧
      session'.locale = session.locale ∧ session.table.Joins (k.table v) session'.table := by
  obtain ⟨loaded, base, hloaded, hbase, rfl⟩ := Session.open_eq_ok.mp hopen
  have hjoins := joins_extend h base
  obtain ⟨earlier, later, hnames, rfl⟩ := h.among
  have hpath : (k.setNames (earlier ++ v :: later) shared).path = shared.path := by
    cases k <;> rfl
  have hlocale : (k.setNames (earlier ++ v :: later) shared).localeIn = shared.localeIn := by
    cases k <;> rfl
  have hne : shared.namespaces ≠ [] →
      (k.setNames (earlier ++ v :: later) shared).namespaces ≠ [] := by
    cases k <;> simp [setNames]
  refine ⟨_, Session.open_eq_ok.mpr ⟨loaded, base, hpath ▸ hloaded, ?_, rfl⟩, rfl, ?_, hjoins⟩
  · rw [hlocale]
    exact baseTable_eq_ok hbase hne
  · rw [hlocale]

theorem exists_start (h : k.Added v shared shared')
    (hstart : start w shared file = .ok (session, t)) :
    ∃ session', start w shared' file = .ok (session', t) ∧ session'.locale = session.locale ∧
      session.table.Joins (k.table v) session'.table := by
  obtain ⟨hopen, hread, hnest⟩ := start_eq_ok.mp hstart
  obtain ⟨session', hopen', hsettings, hlocale, hjoins⟩ := exists_open h hopen
  rw [← hsettings] at hread hnest
  exact ⟨session', start_eq_ok.mpr ⟨hopen', hread, hnest⟩, hlocale, hjoins⟩

end Naming

/-- What `links` prints. -/
def linksEffect (w : World) (shared : Shared) (format : Format) (table : NameTable)
    (links : List MediaLink) : Effect :=
  .print <| match format with
    | .json => line (Json.array (links.map (linkJson table))).print
    | .text =>
      if links.isEmpty then line "No media links found.".toList
      else links.flatMap (linkText (colored w shared))

/-- What `missing-alt` prints. -/
def missingEffect (w : World) (shared : Shared) (format : Format) (locale : String)
    (missing : List MissingAlt) : Effect :=
  ⟨if missing.isEmpty then 0 else 1,
    match format with
    | .json => line (missingJson locale missing).print
    | .text => missingText (colored w shared) missing, [], none⟩

theorem runLinks_eq {links : List MediaLink} (hstart : start w shared file = .ok (session, t))
    (hlinks : session.table.mediaLinks (.ofText t) = .ok links) (format : Format) :
    runLinks w shared file format .nothing =
      .ok () (linksEffect w shared format session.table links) := by
  rw [runLinks, hstart]
  change (Act.check ((session.table.mediaLinks (.ofText t)).mapError Fault.overrun) >>= _) _ = _
  rw [hlinks]
  rfl

theorem runMissingAlt_eq {missing : List MissingAlt}
    (hstart : start w shared file = .ok (session, t))
    (hmissing : session.table.missingAlt (.ofText t) = .ok missing) (format : Format) :
    runMissingAlt w shared file format .nothing =
      .ok () (missingEffect w shared format session.locale missing) := by
  rw [runMissingAlt, hstart]
  change (Act.check ((session.table.missingAlt (.ofText t)).mapError Fault.overrun) >>= _) _ = _
  rw [hmissing]
  cases missing <;> rfl

theorem run_of_request {args : List String} {action : Action}
    (hargs : Request.ofArguments? args = some (.run shared (some action)))
    (h : action.run w shared .nothing = .ok () e) : run w args = .ok e := by
  rw [run, perform_of_request hargs, h]

theorem linksEffect_congr (hcolor : shared'.noColor = shared.noColor) {a b : NameTable}
    (h : b.magicWords = a.magicWords) (format : Format) (links : List MediaLink) :
    linksEffect w shared' format b links = linksEffect w shared format a links := by
  have hjson : linkJson b = linkJson a := by
    funext l
    rw [linkJson, linkJson, NameTable.caption?, NameTable.caption?, h]
  simp only [linksEffect, colored, hcolor, hjson]

theorem missingEffect_congr (hcolor : shared'.noColor = shared.noColor) (format : Format)
    (locale : String) (missing : List MissingAlt) :
    missingEffect w shared' format locale missing =
      missingEffect w shared format locale missing := by
  simp only [missingEffect, colored, hcolor]

/-- What two runs report on one article, the second with the names of a further table. The first
reports those of the links that begin with an alias known to it, and the second all; of the links
without alternative text the second leaves out those that carry a name of the further table. -/
structure Widens (w : World) (args args' : List String) (shared : Shared) (session : Session)
    (file : String) (action : Action) (d : Document) (further : NameTable)
    (links : List MediaLink) : Prop where
  listed : ∀ format, action = .links file format →
    run w args = .ok (linksEffect w shared format session.table
      (links.filter (d.opensWith session.table.namespaces))) ∧
    run w args' = .ok (linksEffect w shared format session.table links)
  missing : ∀ format, action = .missingAlt file format →
    run w args = .ok (missingEffect w shared format session.locale
      (((links.filter (d.opensWith session.table.namespaces)).filter
        (MediaLink.lacks session.table.altParams)).map d.missingOf)) ∧
    run w args' = .ok (missingEffect w shared format session.locale
      (((links.filter (MediaLink.lacks session.table.altParams)).filter
        (MediaLink.lacks further.altParams)).map d.missingOf))

theorem Naming.Added.exists_widens {args args' : List String} {action : Action}
    (h : k.Added v shared shared')
    (hargs : Request.ofArguments? args = some (.run shared (some action)))
    (hargs' : Request.ofArguments? args' = some (.run shared' (some action)))
    (hstart : start w shared file = .ok (session, t))
    (hclean : ∀ a ∈ session.table.namespaces ++ (k.table v).namespaces, Clean a ∧ ':' ∉ a) :
    ∃ links, Widens w args args' shared session file action (.ofText t) (k.table v) links := by
  obtain ⟨session', hstart', hlocale, hjoins⟩ := exists_start h hstart
  have hcolor : shared'.noColor = shared.noColor := by
    obtain ⟨earlier, later, -, rfl⟩ := h.among
    cases k <;> rfl
  obtain ⟨links, hwide, hnarrow⟩ := hjoins.exists_links hclean t
  have hlacks : MediaLink.lacks session'.table.altParams = fun l =>
      l.lacks (k.table v).altParams && l.lacks session.table.altParams := by
    funext l
    rw [MediaLink.lacks_eq_and hjoins.altParams l, Bool.and_comm]
  refine ⟨links, ⟨?_, ?_⟩⟩
  · rintro format rfl
    have hrun' := run_of_request hargs' (runLinks_eq hstart' hwide format)
    rw [linksEffect_congr hcolor hjoins.magicWords] at hrun'
    exact ⟨run_of_request hargs (runLinks_eq hstart hnarrow format), hrun'⟩
  · rintro format rfl
    have hmissing := Document.missingAlt_eq hnarrow session.table.altParams
    have hmissing' := Document.missingAlt_eq hwide session'.table.altParams
    rw [hlacks, ← List.filter_filter] at hmissing'
    have hrun' := run_of_request hargs' (runMissingAlt_eq hstart' hmissing' format)
    rw [missingEffect_congr hcolor, hlocale] at hrun'
    exact ⟨run_of_request hargs (runMissingAlt_eq hstart hmissing format), hrun'⟩

end

/-- The links found with some aliases are those found with more that begin with one of the former,
and more names for alternative text only take reports away; without colons in the aliases their
order does not matter. So extending a table hides no link, and neither does an option that adds a
name to those given, unless it is the only one behind the command's name. -/
theorem reports_with_more_names (w : World) (t : Text) :
    (∀ aliases more names further : List Text, (∀ a ∈ aliases ++ more, Clean a) →
      ∃ links, (Document.ofText t).Widened aliases more names further links) ∧
    (∀ aliases aliases' names : List Text, (∀ a ∈ aliases, ':' ∉ a) →
      (∀ a, a ∈ aliases ↔ a ∈ aliases') →
      (Document.ofText t).mediaLinks aliases' = (Document.ofText t).mediaLinks aliases ∧
        (Document.ofText t).missingAlt aliases' names =
          (Document.ofText t).missingAlt aliases names) ∧
    (∀ a b : NameTable, (∀ n ∈ a.namespaces ++ b.namespaces, Clean n) →
      ∃ links, (a.extend b).mediaLinks (.ofText t) = .ok links ∧ a.mediaLinks (.ofText t) =
        .ok (links.filter ((Document.ofText t).opensWith a.namespaces))) ∧
    ∀ (k : Naming) (v : String) (flag pre post : List String) (shared' : Shared)
      (action : Action), Given k.option v flag → "--" ∉ pre →
      Request.ofArguments? (pre ++ (flag ++ post)) = some (.run shared' (some action)) →
      ∃ shared, Request.ofArguments? (pre ++ post) = some (.run shared (some action)) ∧
        (shared' = shared ∨ k.Alone v pre shared shared' ∨ k.Added v shared shared' ∧
          ∀ file session, start w shared file = .ok (session, t) →
            (∀ a ∈ session.table.namespaces ++ (k.table v).namespaces, Clean a ∧ ':' ∉ a) →
            ∃ links, Widens w (pre ++ post) (pre ++ (flag ++ post)) shared session file action
              (.ofText t) (k.table v) links) := by
  refine ⟨fun aliases more names further ha => Document.exists_widened ha names further t,
    fun aliases aliases' names hcolon h => ?_, fun a b ha => NameTable.mediaLinks_extend ha t, ?_⟩
  · have hlinks := Document.mediaLinks_congr hcolon h (.ofText t)
    exact ⟨hlinks, by rw [Document.missingAlt, Document.missingAlt, hlinks]⟩
  · intro k v flag pre post shared' action hflag hpre hrequest
    obtain ⟨shared, hrequest', hcases⟩ := Request.exists_leave_out hflag hpre hrequest
    refine ⟨shared, hrequest', ?_⟩
    rcases hcases with hsame | hadded | halone
    · exact .inl hsame
    · exact .inr (.inr ⟨hadded, fun file session hstart hclean =>
        hadded.exists_widens hrequest' hrequest hstart hclean⟩)
    · exact .inr (.inl halone)

/-- An article with one image for each of two languages. -/
def twoLanguages : World :=
  let files : FileTree := ⟨[(["a.txt"], .file (Text.toBytes "[[File:A]][[Datei:B]]".toList))]⟩
  { look := files.entry?, directory := "", input := ByteArray.empty, color := false }

theorem reports_with_more_names_twoLanguages :
    let shared : Shared := ⟨none, false, false, none, [], []⟩
    ∃ links,
      run twoLanguages ["links", "a.txt"] = .ok (linksEffect twoLanguages shared .text .english
        (links.filter ((Document.ofText "[[File:A]][[Datei:B]]".toList).opensWith
          NameTable.english.namespaces))) ∧
      run twoLanguages ["links", "a.txt", "--namespace", "Datei"] =
        .ok (linksEffect twoLanguages shared .text .english links) := by
  intro shared
  have hrequest : Request.ofArguments? ["links", "a.txt", "--namespace", "Datei"] =
      some (.run (Naming.namespaces.setNames ["Datei"] shared) (some (.links "a.txt" .text))) := by
    decide +kernel
  have hplain : Request.ofArguments? ["links", "a.txt"] =
      some (.run shared (some (.links "a.txt" .text))) := by decide +kernel
  obtain ⟨_, hshared, hcases⟩ := (reports_with_more_names twoLanguages
    "[[File:A]][[Datei:B]]".toList).2.2.2 .namespaces "Datei" ["--namespace", "Datei"]
    ["links", "a.txt"] [] _ _ (.apart rfl "Datei") (by decide) hrequest
  cases hplain.symm.trans hshared
  have hload : Settings.load twoLanguages.look none = .ok none :=
    eq_ok_of_toOption (by decide +kernel)
  have hbase : baseTable .default "en" [] = .ok .english := rfl
  have hopen : Session.open twoLanguages shared = .ok ⟨.default, "en", .english⟩ :=
    Session.open_eq_ok.mpr ⟨none, .english, hload, hbase, rfl⟩
  have hstart : start twoLanguages shared "a.txt" =
      .ok (⟨.default, "en", .english⟩, "[[File:A]][[Datei:B]]".toList) :=
    start_eq_ok.mpr ⟨hopen, eq_ok_of_toOption (by decide +kernel),
      eq_ok_of_toOption (by decide +kernel)⟩
  rcases hcases with hsame | ⟨⟨_, _, _, _, -, -, hne, hnames⟩, -⟩ | ⟨-, hadded⟩
  · exact absurd hsame (by decide)
  · exact absurd hnames.symm hne
  · obtain ⟨links, hlinks⟩ := hadded _ _ hstart (by decide)
    exact ⟨links, hlinks.listed .text rfl⟩

/-- The name in front of the command's name is lost to the one behind it, and with it the link. -/
theorem alone_hides_link :
    (run twoLanguages ["--namespace", "Datei", "links", "a.txt"]).toOption.map (·.output) =
      some "File:A (offset 0, length 10)\nDatei:B (offset 10, length 11)\n".toList ∧
    (run twoLanguages ["--namespace", "Datei", "links", "a.txt", "--namespace", "Foo"]).toOption.map
      (·.output) = some "File:A (offset 0, length 10)\n".toList := by
  decide +kernel

end Wikitext.Command
