import Fslite.Command.Parser
import Fslite.Sqlite.Run.Listing

namespace fslite.parser

open lexer http FsResult

/-- What a flag can determine in a command. -/
inductive Field where
  | Bool (b : Bool)
  | Nat (n : Nat)
  | Int (n : Int)
  | Text (text : Text)
  | Bytes (bytes : Bytes)
  | Revision (revision : Revision)
  | Range (range : ByteRange)
  | Kind (kind : NodeKind)
  | Path (path : VirtualPath)
  | Operations (operations : List BatchOperation)

namespace FlagName

def all : List FlagName :=
  [.expected_revision, .cursor, .limit, .max_depth, .range, .text, .offset, .length, .to, .value,
    .name_contains, .kind,
    .min_size, .max_size, .modified_after, .modified_before, .after, .file, .recursive, .overwrite,
      .parents, .exist_ok,
    .no_create, .no_follow, .follow_symlinks]

/-- The flags that stand alone. -/
def switch : FlagName → Bool
  | .recursive | .overwrite | .parents | .exist_ok | .no_create | .no_follow | .follow_symlinks =>
    true
  | _ => false

/-- The flags that have a value, and that their verbs insist on. -/
def mandatory : FlagName → Bool
  | .text | .offset | .length | .value | .file => true
  | _ => false

/-- What a value of a flag stands for. -/
@[simp] def read (env : Environment) : FlagName → Text → Option Field
  | .expected_revision, raw => ((parse_uint U64_MAX raw).bind Revision.new).map .Revision
  | .limit, raw | .max_depth, raw => (parse_uint U32_MAX raw).map .Nat
  | .offset, raw | .length, raw | .min_size, raw | .max_size, raw =>
    (parse_uint U64_MAX raw).map .Nat
  | .modified_after, raw | .modified_before, raw => (parse_int raw).map .Int
  | .cursor, raw | .after, raw | .name_contains, raw => some (.Text raw)
  | .text, raw | .value, raw => some (.Bytes (Url.utf8 raw))
  | .range, raw => (parse_range raw).toOption.map .Range
  | .kind, raw => (parse_kind raw).toOption.map .Kind
  | .to, raw => (parse_path .restore "to" raw).toOption.map .Path
  | .file, raw => (parse_batch env raw).toOption.map .Operations
  | _, _ => none

/-- What a flag says with its value, or without one. -/
def means (env : Environment) (name : FlagName) (value : Option Text) : Option Field :=
  if name.switch then (if value = none then some (.Bool true) else none) else value.bind
    (name.read env)

theorem mem_all (name : FlagName) : name ∈ all := by cases name <;> decide

theorem spellings_nodup : (all.map spelling).Nodup := by decide

theorem spelling_injective {name other : FlagName}
    (h : name.spelling.toList = other.spelling.toList) :
    name = other :=
  List.inj_on_of_nodup_map spellings_nodup (mem_all name) (mem_all other) (String.toList_inj.mp h)

end FlagName

namespace Command

def expected_revision : Command → Option Revision
  | .Mkdir _ options => options.expected_revision
  | .Write _ _ options => options.expected_revision
  | .WriteAt _ _ _ options => options.expected_revision
  | .Append _ _ options => options.expected_revision
  | .Truncate _ _ options => options.expected_revision
  | .Touch _ options => options.expected_revision
  | .Copy _ _ options => options.expected_revision
  | .Move _ _ options => options.expected_revision
  | .Remove _ options => options.expected_revision
  | .Symlink _ _ options => options.expected_revision
  | .Trash _ options => options.expected_revision
  | .Restore _ _ options => options.expected_revision
  | .SetAttribute _ _ _ options => options.expected_revision
  | .RemoveAttribute _ _ options => options.expected_revision
  | _ => none

def page : Command → Option PageRequest
  | .ReadDir _ page => some page
  | .Tree _ _ page => some page
  | .ListTrash page => some page
  | .Glob _ page => some page
  | .Find _ page => some page
  | .SearchContent _ page => some page
  | .Changes _ page => some page
  | _ => none

/-- The bytes that the command writes. -/
def payload : Command → Option Bytes
  | .Write _ bytes _ => some bytes
  | .WriteAt _ _ bytes _ => some bytes
  | .Append _ bytes _ => some bytes
  | _ => none

def follows : Command → Option Bool
  | .Stat _ follow_symlinks => some follow_symlinks
  | .Exists _ follow_symlinks => some follow_symlinks
  | .Read _ options => some options.follow_symlinks
  | .Tree _ options _ => some options.follow_symlinks
  | _ => none

def creates : Command → Option Bool
  | .Write _ _ options => some options.create
  | .WriteAt _ _ _ options => some options.create
  | .Touch _ options => some options.create
  | _ => none

def query : Command → Option FindQuery
  | .Find query _ => some query
  | _ => none

/-- The field of a command that a flag determines. -/
@[simp] def field : FlagName → Command → Option Field
  | .expected_revision, command => command.expected_revision.map .Revision
  | .cursor, command => (command.page.bind PageRequest.cursor).map .Text
  | .limit, command => (command.page.map PageRequest.limit).map .Nat
  | .no_follow, command => command.follows.map (fun follows => .Bool (! follows))
  | .follow_symlinks, command => command.follows.map .Bool
  | .no_create, command => command.creates.map (fun creates => .Bool (! creates))
  | .text, command => command.payload.map .Bytes
  | .name_contains, command => (command.query.bind FindQuery.name_contains).map .Text
  | .kind, command => (command.query.bind FindQuery.kind).map .Kind
  | .min_size, command => (command.query.bind FindQuery.min_logical_size).map .Nat
  | .max_size, command => (command.query.bind FindQuery.max_logical_size).map .Nat
  | .modified_after, command => (command.query.bind FindQuery.modified_after_ms).map .Int
  | .modified_before, command => (command.query.bind FindQuery.modified_before_ms).map .Int
  | .max_depth, .Tree _ options _ => options.max_depth.map .Nat
  | .range, .Read _ options => options.range.map .Range
  | .offset, .WriteAt _ offset _ _ => some (.Nat offset)
  | .length, .Truncate _ length _ => some (.Nat length)
  | .to, .Restore _ destination _ => destination.map .Path
  | .value, .SetAttribute _ _ value _ => some (.Bytes value)
  | .after, .Changes after _ => after.map (fun cursor => .Text cursor.as_str)
  | .file, .Batch operations => some (.Operations operations)
  | .recursive, .Copy _ _ options => some (.Bool options.recursive)
  | .recursive, .Remove _ options => some (.Bool options.recursive)
  | .overwrite, .Copy _ _ options => some (.Bool options.overwrite)
  | .overwrite, .Move _ _ options => some (.Bool options.overwrite)
  | .parents, .Mkdir _ options => some (.Bool options.parents)
  | .parents, .Symlink _ _ options => some (.Bool options.parents)
  | .exist_ok, .Mkdir _ options => some (.Bool options.exist_ok)
  | .exist_ok, .Symlink _ _ options => some (.Bool options.exist_ok)
  | _, _ => none

end Command

/-- The tokens of a line. -/
def tokens_of (line : Text) : List Token := ((tokenize line).toOption).getD []

/-- The spellings of the flags among the tokens. -/
def flag_spellings (tokens : List Token) : List Text :=
  tokens.filterMap (fun token =>
    match token with
    | .Word _ => none
    | .Flag spelled _ => some spelled)

/-- No flag is there twice, and the command has, for every flag, what the flag says. -/
structure Consistent (env : Environment) (tokens : List Token) (command : Command) : Prop where
  once : (flag_spellings tokens).Nodup
  effect (spelled : Text) (value : Option Text) : .Flag spelled value ∈ tokens →
    ∃ name : FlagName, name.spelling.toList = spelled ∧
      ∃ field, name.means env value = some field ∧ command.field name = some field

/-- No flag is repeated, no switch has a value, and no flag that may be left out stands there
without one. -/
structure Spelled (tokens : List Token) : Prop where
  once : (flag_spellings tokens).Nodup
  bare (name : FlagName) (value : Option Text) :
    name.switch = true → .Flag name.spelling.toList value ∈ tokens →
    value = none
  valued (name : FlagName) : name.switch = false → name.mandatory = false →
    .Flag name.spelling.toList none ∉ tokens

/-- The last occurrence of a flag has its effect: a switch also when it has a value, any other
flag unless it may be left out and has none. -/
def Honours (env : Environment) (args : Args) (command : Command) (name : FlagName) : Prop :=
  ∀ value, args.flag name = some value →
    (name.switch = true → command.field name = some (.Bool true)) ∧
    (name.switch = false → (value = none → name.mandatory = false) ∧
      ∀ raw, value = some raw → ∃ field, name.read env raw = some field ∧
        command.field name = some field)

section honours

variable {env : Environment} {args : Args} {command : Command} {name : FlagName} {verb : Verb}

theorem honours_switch (hswitch : name.switch = true)
    (hfield : command.field name = some (.Bool (args.has_flag name))) :
    Honours env args command name := by
  intro value hvalue
  refine ⟨fun _ => ?_, fun hno => ?_⟩
  · rw [hfield, Args.has_flag, hvalue, Option.isSome_some]
  · rw [hswitch] at hno
    cases hno

/-- A flag whose value is looked at only when there is one. -/
theorem honours_value (hswitch : name.switch = false) (hmandatory : name.mandatory = false)
    (hfield : ∀ raw, args.flag_value name = some raw →
      ∃ field, name.read env raw = some field ∧ command.field name = some field) :
    Honours env args command name := by
  intro value hvalue
  refine ⟨fun hyes => ?_, fun _ => ⟨fun _ => hmandatory, fun raw hraw => ?_⟩⟩
  · rw [hswitch] at hyes
    cases hyes
  · apply hfield
    rw [Args.flag_value, hvalue, hraw, Option.join_some]

theorem honours_optional {A : Type} {read : Text → Except ParseError A} {found : Option A}
    (wrap : A → Field) (h : args.optional name read = .ok found) (hswitch : name.switch = false)
    (hmandatory : name.mandatory = false)
    (hread : ∀ raw a, read raw = .ok a → name.read env raw = some (wrap a))
    (hfield : command.field name = found.map wrap) : Honours env args command name := by
  apply honours_value hswitch hmandatory
  intro raw hraw
  unfold Args.optional at h
  rw [hraw] at h
  obtain ⟨a, ha, hfound⟩ := map_eq_ok.mp h
  refine ⟨wrap a, hread raw a ha, ?_⟩
  rw [hfield, ← hfound, Option.map_some]

theorem honours_required {missing : String} {raw : Text}
    (h : args.required verb name missing = .ok raw) (hswitch : name.switch = false)
    (hfield : ∃ field, name.read env raw = some field ∧ command.field name = some field) :
    Honours env args command name := by
  intro value hvalue
  unfold Args.required Args.flag_value at h
  rw [hvalue] at h
  refine ⟨fun hyes => ?_, fun _ => ⟨fun hnone => ?_, fun found hfound => ?_⟩⟩
  · rw [hswitch] at hyes
    cases hyes
  · rw [hnone] at h
    cases h
  · rw [hfound] at h
    cases h
    exact hfield

theorem honours_revision {revision : Option Revision}
    (h : args.expected_revision verb = .ok revision)
    (hfield : command.expected_revision = revision) :
    Honours env args command .expected_revision := by
  refine honours_optional .Revision h rfl rfl ?_ (by rw [Command.field, hfield])
  intro raw found hread
  split at hread
  · cases hread
  · rename_i n hn
    split at hread
    · cases hread
    · rename_i revision hrevision
      cases hread
      rw [FlagName.read, hn, Option.bind_some, hrevision, Option.map_some]

theorem unsigned_eq_ok {max n : Nat} {raw : Text} (h : Args.unsigned verb max name raw = .ok n) :
    parse_uint max raw = some n := by
  unfold Args.unsigned at h
  split at h
  · rename_i hn
    cases h
    exact hn
  · cases h

theorem signed_eq_ok {n : Int} {raw : Text} (h : Args.signed verb name raw = .ok n) :
    parse_int raw = some n := by
  unfold Args.signed at h
  split at h
  · rename_i hn
    cases h
    exact hn
  · cases h

theorem honours_unsigned {max : Nat} {found : Option Nat}
    (h : args.optional name (Args.unsigned verb max name) = .ok found)
    (hswitch : name.switch = false) (hmandatory : name.mandatory = false)
    (hread : ∀ raw, name.read env raw = (parse_uint max raw).map .Nat)
    (hfield : command.field name = found.map .Nat) : Honours env args command name := by
  refine honours_optional .Nat h hswitch hmandatory ?_ hfield
  intro raw n hn
  rw [hread, unsigned_eq_ok hn, Option.map_some]

theorem honours_signed {found : Option Int}
    (h : args.optional name (Args.signed verb name) = .ok found) (hswitch : name.switch = false)
    (hmandatory : name.mandatory = false)
    (hread : ∀ raw, name.read env raw = (parse_int raw).map .Int)
    (hfield : command.field name = found.map .Int) :
    Honours env args command name := by
  refine honours_optional .Int h hswitch hmandatory ?_ hfield
  intro raw n hn
  rw [hread, signed_eq_ok hn, Option.map_some]

theorem page_eq_ok {page : PageRequest} (h : args.page verb = .ok page) :
    page.cursor = args.flag_value .cursor ∧
      ∀ raw, args.flag_value .limit = some raw → parse_uint U32_MAX raw = some page.limit := by
  unfold Args.page at h
  split at h
  · rename_i hnone
    cases h
    refine ⟨rfl, fun raw hraw => ?_⟩
    rw [hnone] at hraw
    cases hraw
  · rename_i raw hraw
    obtain ⟨limit, hlimit, hpage⟩ := bind_eq_ok.mp h
    cases hpage
    refine ⟨rfl, fun raw' hraw' => ?_⟩
    rw [hraw] at hraw'
    cases hraw'
    exact unsigned_eq_ok hlimit

theorem honours_cursor {page : PageRequest} (h : args.page verb = .ok page)
    (hfield : command.page = some page) :
    Honours env args command .cursor := by
  apply honours_value rfl rfl
  intro raw hraw
  refine ⟨.Text raw, rfl, ?_⟩
  rw [Command.field, hfield, Option.bind_some, (page_eq_ok h).1, hraw, Option.map_some]

theorem honours_limit {page : PageRequest} (h : args.page verb = .ok page)
    (hfield : command.page = some page) :
    Honours env args command .limit := by
  apply honours_value rfl rfl
  intro raw hraw
  refine ⟨.Nat page.limit, ?_, ?_⟩
  · rw [FlagName.read, (page_eq_ok h).2 raw hraw, Option.map_some]
  · rw [Command.field, hfield, Option.map_some, Option.map_some]

end honours

namespace Verb

variable {env : Environment} {args : Args} {command : Command}

theorem honours_stat (h : Verb.stat.command env args = .ok command) :
    Verb.stat.flags.Forall (Honours env args command) := by
  obtain ⟨path, _, hcommand⟩ := bind_eq_ok.mp h
  cases hcommand
  simp only [Verb.flags, List.Forall]
  exact honours_switch rfl (by simp [Command.field, Command.follows])

theorem honours_exists_ (h : Verb.exists_.command env args = .ok command) :
    Verb.exists_.flags.Forall (Honours env args command) := by
  obtain ⟨path, _, hcommand⟩ := bind_eq_ok.mp h
  cases hcommand
  simp only [Verb.flags, List.Forall]
  exact honours_switch rfl (by simp [Command.field, Command.follows])

theorem honours_ls (h : Verb.ls.command env args = .ok command) :
    Verb.ls.flags.Forall (Honours env args command) := by
  obtain ⟨path, _, h⟩ := bind_eq_ok.mp h
  obtain ⟨page, hpage, hcommand⟩ := bind_eq_ok.mp h
  cases hcommand
  simp only [Verb.flags, List.Forall]
  exact ⟨honours_cursor hpage rfl, honours_limit hpage rfl⟩

theorem honours_tree (h : Verb.tree.command env args = .ok command) :
    Verb.tree.flags.Forall (Honours env args command) := by
  obtain ⟨path, _, h⟩ := bind_eq_ok.mp h
  obtain ⟨max_depth, hdepth, h⟩ := bind_eq_ok.mp h
  obtain ⟨page, hpage, hcommand⟩ := bind_eq_ok.mp h
  cases hcommand
  simp only [Verb.flags, List.Forall]
  exact ⟨honours_unsigned hdepth rfl rfl (fun _ => rfl) rfl, honours_switch rfl rfl,
    honours_cursor hpage rfl,
    honours_limit hpage rfl⟩

theorem honours_mkdir (h : Verb.mkdir.command env args = .ok command) :
    Verb.mkdir.flags.Forall (Honours env args command) := by
  obtain ⟨path, _, h⟩ := bind_eq_ok.mp h
  obtain ⟨revision, hrevision, hcommand⟩ := bind_eq_ok.mp h
  cases hcommand
  simp only [Verb.flags, List.Forall]
  exact ⟨honours_switch rfl rfl, honours_switch rfl rfl, honours_revision hrevision rfl⟩

theorem honours_cat (h : Verb.cat.command env args = .ok command) :
    Verb.cat.flags.Forall (Honours env args command) := by
  obtain ⟨path, _, h⟩ := bind_eq_ok.mp h
  obtain ⟨range, hrange, hcommand⟩ := bind_eq_ok.mp h
  cases hcommand
  simp only [Verb.flags, List.Forall]
  refine ⟨honours_optional .Range hrange rfl rfl ?_ rfl,
    honours_switch rfl (by simp [Command.field, Command.follows])⟩
  intro raw range hread
  rw [FlagName.read, hread]
  rfl

theorem honours_write (h : Verb.write.command env args = .ok command) :
    Verb.write.flags.Forall (Honours env args command) := by
  obtain ⟨path, _, h⟩ := bind_eq_ok.mp h
  obtain ⟨text, htext, h⟩ := bind_eq_ok.mp h
  obtain ⟨revision, hrevision, hcommand⟩ := bind_eq_ok.mp h
  cases hcommand
  simp only [Verb.flags, List.Forall]
  exact ⟨honours_required htext rfl ⟨_, rfl, rfl⟩,
    honours_switch rfl (by simp [Command.field, Command.creates]), honours_revision hrevision rfl⟩

theorem honours_write_at (h : Verb.write_at.command env args = .ok command) :
    Verb.write_at.flags.Forall (Honours env args command) := by
  obtain ⟨path, _, h⟩ := bind_eq_ok.mp h
  obtain ⟨raw, hraw, h⟩ := bind_eq_ok.mp h
  obtain ⟨offset, hoffset, h⟩ := bind_eq_ok.mp h
  obtain ⟨text, htext, h⟩ := bind_eq_ok.mp h
  obtain ⟨revision, hrevision, hcommand⟩ := bind_eq_ok.mp h
  cases hcommand
  simp only [Verb.flags, List.Forall]
  refine ⟨honours_required hraw rfl ⟨.Nat offset, ?_, rfl⟩,
    honours_required htext rfl ⟨_, rfl, rfl⟩,
    honours_switch rfl (by simp [Command.field, Command.creates]), honours_revision hrevision rfl⟩
  rw [FlagName.read, unsigned_eq_ok hoffset, Option.map_some]

theorem honours_append (h : Verb.append.command env args = .ok command) :
    Verb.append.flags.Forall (Honours env args command) := by
  obtain ⟨path, _, h⟩ := bind_eq_ok.mp h
  obtain ⟨text, htext, h⟩ := bind_eq_ok.mp h
  obtain ⟨revision, hrevision, hcommand⟩ := bind_eq_ok.mp h
  cases hcommand
  simp only [Verb.flags, List.Forall]
  exact ⟨honours_required htext rfl ⟨_, rfl, rfl⟩, honours_revision hrevision rfl⟩

theorem honours_truncate (h : Verb.truncate.command env args = .ok command) :
    Verb.truncate.flags.Forall (Honours env args command) := by
  obtain ⟨path, _, h⟩ := bind_eq_ok.mp h
  obtain ⟨raw, hraw, h⟩ := bind_eq_ok.mp h
  obtain ⟨length, hlength, h⟩ := bind_eq_ok.mp h
  obtain ⟨revision, hrevision, hcommand⟩ := bind_eq_ok.mp h
  cases hcommand
  simp only [Verb.flags, List.Forall]
  refine ⟨honours_required hraw rfl ⟨.Nat length, ?_, rfl⟩, honours_revision hrevision rfl⟩
  rw [FlagName.read, unsigned_eq_ok hlength, Option.map_some]

theorem honours_touch (h : Verb.touch.command env args = .ok command) :
    Verb.touch.flags.Forall (Honours env args command) := by
  obtain ⟨path, _, h⟩ := bind_eq_ok.mp h
  obtain ⟨revision, hrevision, hcommand⟩ := bind_eq_ok.mp h
  cases hcommand
  simp only [Verb.flags, List.Forall]
  exact ⟨honours_switch rfl (by simp [Command.field, Command.creates]),
    honours_revision hrevision rfl⟩

theorem honours_cp (h : Verb.cp.command env args = .ok command) :
    Verb.cp.flags.Forall (Honours env args command) := by
  obtain ⟨source, _, h⟩ := bind_eq_ok.mp h
  obtain ⟨target, _, h⟩ := bind_eq_ok.mp h
  obtain ⟨revision, hrevision, hcommand⟩ := bind_eq_ok.mp h
  cases hcommand
  simp only [Verb.flags, List.Forall]
  exact ⟨honours_switch rfl rfl, honours_switch rfl rfl, honours_revision hrevision rfl⟩

theorem honours_mv (h : Verb.mv.command env args = .ok command) :
    Verb.mv.flags.Forall (Honours env args command) := by
  obtain ⟨source, _, h⟩ := bind_eq_ok.mp h
  obtain ⟨target, _, h⟩ := bind_eq_ok.mp h
  obtain ⟨revision, hrevision, hcommand⟩ := bind_eq_ok.mp h
  cases hcommand
  simp only [Verb.flags, List.Forall]
  exact ⟨honours_switch rfl rfl, honours_revision hrevision rfl⟩

theorem honours_rm (h : Verb.rm.command env args = .ok command) :
    Verb.rm.flags.Forall (Honours env args command) := by
  obtain ⟨path, _, h⟩ := bind_eq_ok.mp h
  obtain ⟨revision, hrevision, hcommand⟩ := bind_eq_ok.mp h
  cases hcommand
  simp only [Verb.flags, List.Forall]
  exact ⟨honours_switch rfl rfl, honours_revision hrevision rfl⟩

theorem honours_ln (h : Verb.ln.command env args = .ok command) :
    Verb.ln.flags.Forall (Honours env args command) := by
  obtain ⟨target_raw, _, h⟩ := bind_eq_ok.mp h
  obtain ⟨link_raw, _, h⟩ := bind_eq_ok.mp h
  obtain ⟨target, _, h⟩ := bind_eq_ok.mp h
  obtain ⟨link, _, h⟩ := bind_eq_ok.mp h
  obtain ⟨revision, hrevision, hcommand⟩ := bind_eq_ok.mp h
  cases hcommand
  simp only [Verb.flags, List.Forall]
  exact ⟨honours_switch rfl rfl, honours_switch rfl rfl, honours_revision hrevision rfl⟩

theorem honours_trash (h : Verb.trash.command env args = .ok command) :
    Verb.trash.flags.Forall (Honours env args command) := by
  obtain ⟨path, _, h⟩ := bind_eq_ok.mp h
  obtain ⟨revision, hrevision, hcommand⟩ := bind_eq_ok.mp h
  cases hcommand
  simp only [Verb.flags, List.Forall]
  exact honours_revision hrevision rfl

theorem honours_trash_ls (h : Verb.trash_ls.command env args = .ok command) :
    Verb.trash_ls.flags.Forall (Honours env args command) := by
  obtain ⟨page, hpage, hcommand⟩ := bind_eq_ok.mp h
  cases hcommand
  simp only [Verb.flags, List.Forall]
  exact ⟨honours_cursor hpage rfl, honours_limit hpage rfl⟩

theorem honours_restore (h : Verb.restore.command env args = .ok command) :
    Verb.restore.flags.Forall (Honours env args command) := by
  obtain ⟨trash, _, h⟩ := bind_eq_ok.mp h
  obtain ⟨destination, hdestination, h⟩ := bind_eq_ok.mp h
  obtain ⟨revision, hrevision, hcommand⟩ := bind_eq_ok.mp h
  cases hcommand
  simp only [Verb.flags, List.Forall]
  refine ⟨honours_optional .Path hdestination rfl rfl ?_ rfl, honours_revision hrevision rfl⟩
  intro raw path hread
  rw [FlagName.read, hread]
  rfl

theorem honours_setattr (h : Verb.setattr.command env args = .ok command) :
    Verb.setattr.flags.Forall (Honours env args command) := by
  obtain ⟨path, _, h⟩ := bind_eq_ok.mp h
  obtain ⟨key, _, h⟩ := bind_eq_ok.mp h
  obtain ⟨value, hvalue, h⟩ := bind_eq_ok.mp h
  obtain ⟨revision, hrevision, hcommand⟩ := bind_eq_ok.mp h
  cases hcommand
  simp only [Verb.flags, List.Forall]
  exact ⟨honours_required hvalue rfl ⟨_, rfl, rfl⟩, honours_revision hrevision rfl⟩

theorem honours_rmattr (h : Verb.rmattr.command env args = .ok command) :
    Verb.rmattr.flags.Forall (Honours env args command) := by
  obtain ⟨path, _, h⟩ := bind_eq_ok.mp h
  obtain ⟨key, _, h⟩ := bind_eq_ok.mp h
  obtain ⟨revision, hrevision, hcommand⟩ := bind_eq_ok.mp h
  cases hcommand
  simp only [Verb.flags, List.Forall]
  exact honours_revision hrevision rfl

theorem honours_glob (h : Verb.glob.command env args = .ok command) :
    Verb.glob.flags.Forall (Honours env args command) := by
  obtain ⟨raw, _, h⟩ := bind_eq_ok.mp h
  obtain ⟨pattern, _, h⟩ := bind_eq_ok.mp h
  obtain ⟨page, hpage, hcommand⟩ := bind_eq_ok.mp h
  cases hcommand
  simp only [Verb.flags, List.Forall]
  exact ⟨honours_cursor hpage rfl, honours_limit hpage rfl⟩

theorem honours_find (h : Verb.find.command env args = .ok command) :
    Verb.find.flags.Forall (Honours env args command) := by
  obtain ⟨root, _, h⟩ := bind_eq_ok.mp h
  obtain ⟨kind, hkind, h⟩ := bind_eq_ok.mp h
  obtain ⟨min_size, hmin, h⟩ := bind_eq_ok.mp h
  obtain ⟨max_size, hmax, h⟩ := bind_eq_ok.mp h
  obtain ⟨modified_after, hafter, h⟩ := bind_eq_ok.mp h
  obtain ⟨modified_before, hbefore, h⟩ := bind_eq_ok.mp h
  obtain ⟨page, hpage, hcommand⟩ := bind_eq_ok.mp h
  cases hcommand
  simp only [Verb.flags, List.Forall]
  refine ⟨honours_value rfl rfl ?_, honours_optional .Kind hkind rfl rfl ?_ rfl,
    honours_unsigned hmin rfl rfl (fun _ => rfl) rfl,
      honours_unsigned hmax rfl rfl (fun _ => rfl) rfl,
    honours_signed hafter rfl rfl (fun _ => rfl) rfl,
      honours_signed hbefore rfl rfl (fun _ => rfl) rfl,
    honours_cursor hpage rfl, honours_limit hpage rfl⟩
  · intro raw hraw
    refine ⟨.Text raw, rfl, ?_⟩
    simp [Command.field, Command.query, hraw]
  · intro raw kind hread
    rw [FlagName.read, hread]
    rfl

theorem honours_grep (h : Verb.grep.command env args = .ok command) :
    Verb.grep.flags.Forall (Honours env args command) := by
  obtain ⟨root, _, h⟩ := bind_eq_ok.mp h
  obtain ⟨needle, _, h⟩ := bind_eq_ok.mp h
  obtain ⟨page, hpage, hcommand⟩ := bind_eq_ok.mp h
  cases hcommand
  simp only [Verb.flags, List.Forall]
  exact ⟨honours_cursor hpage rfl, honours_limit hpage rfl⟩

theorem honours_changes (h : Verb.changes.command env args = .ok command) :
    Verb.changes.flags.Forall (Honours env args command) := by
  obtain ⟨page, hpage, hcommand⟩ := bind_eq_ok.mp h
  cases hcommand
  simp only [Verb.flags, List.Forall]
  refine ⟨honours_value rfl rfl ?_, honours_cursor hpage rfl, honours_limit hpage rfl⟩
  intro raw hraw
  refine ⟨.Text raw, rfl, ?_⟩
  rw [Command.field, hraw]
  rfl

theorem honours_batch (h : Verb.batch.command env args = .ok command) :
    Verb.batch.flags.Forall (Honours env args command) := by
  obtain ⟨file, hfile, h⟩ := bind_eq_ok.mp h
  obtain ⟨operations, hoperations, hcommand⟩ := bind_eq_ok.mp h
  cases hcommand
  simp only [Verb.flags, List.Forall]
  refine honours_required hfile rfl ⟨.Operations operations, ?_, rfl⟩
  rw [FlagName.read, hoperations]
  rfl

theorem honours (verb : Verb) (h : verb.command env args = .ok command) :
    verb.flags.Forall (Honours env args command) := by
  cases verb with
  | usage => trivial
  | readlink => trivial
  | purge => trivial
  | stat => exact honours_stat h
  | exists_ => exact honours_exists_ h
  | ls => exact honours_ls h
  | tree => exact honours_tree h
  | mkdir => exact honours_mkdir h
  | cat => exact honours_cat h
  | write => exact honours_write h
  | write_at => exact honours_write_at h
  | append => exact honours_append h
  | truncate => exact honours_truncate h
  | touch => exact honours_touch h
  | cp => exact honours_cp h
  | mv => exact honours_mv h
  | rm => exact honours_rm h
  | ln => exact honours_ln h
  | trash => exact honours_trash h
  | trash_ls => exact honours_trash_ls h
  | restore => exact honours_restore h
  | setattr => exact honours_setattr h
  | rmattr => exact honours_rmattr h
  | glob => exact honours_glob h
  | find => exact honours_find h
  | grep => exact honours_grep h
  | changes => exact honours_changes h
  | batch => exact honours_batch h

end Verb

section tokens

variable {tokens : List Token} {spelled : Text} {value : Option Text}

theorem mem_flag_spellings : spelled ∈ flag_spellings tokens ↔ ∃ value,
    Token.Flag spelled value ∈ tokens := by
  simp only [flag_spellings, List.mem_filterMap]
  constructor
  · rintro ⟨token, hmem, hspelled⟩
    cases token with
    | Word word => cases hspelled
    | Flag name value =>
      cases hspelled
      exact ⟨value, hmem⟩
  · rintro ⟨value, hmem⟩
    exact ⟨_, hmem, rfl⟩

/-- What a map of the flags has is the last occurrence of each. -/
theorem find?_foldl_take (args : Args) (row : Text × Option Text)
    (h : (tokens.foldl Args.take args).flags.find? spelled = some row) :
    args.flags.find? spelled = some row ∨ .Flag spelled row.2 ∈ tokens := by
  induction tokens generalizing args with
  | nil => exact .inl h
  | cons token tokens ih =>
    obtain hbefore | hmem := ih (args.take token) h
    · cases token with
      | Word word => exact .inl hbefore
      | Flag name value =>
        rw [Args.take, Table.find?_upsert] at hbefore
        split at hbefore
        · rename_i hname
          cases hbefore
          dsimp only at hname
          subst hname
          exact .inr List.mem_cons_self
        · exact .inl hbefore
    · exact .inr (List.mem_cons_of_mem _ hmem)

theorem contains_foldl_take (args : Args)
    (h : args.flags.contains spelled = true ∨ ∃ value, Token.Flag spelled value ∈ tokens) :
    (tokens.foldl Args.take args).flags.contains spelled = true := by
  induction tokens generalizing args with
  | nil =>
    obtain h | ⟨_, hmem⟩ := h
    · exact h
    · cases hmem
  | cons token tokens ih =>
    apply ih
    cases token with
    | Word word => simpa [Args.take] using h
    | Flag name other =>
      by_cases hname : name = spelled
      · left
        simp [Args.take, Table.contains, Table.find?_upsert, hname]
      · simpa [Args.take, Table.contains, Table.find?_upsert, hname, Ne.symm hname] using h

theorem value_unique (honce : (flag_spellings tokens).Nodup) {other : Option Text}
    (h : .Flag spelled value ∈ tokens) (hother : .Flag spelled other ∈ tokens) : other = value := by
  induction tokens with
  | nil => cases h
  | cons token tokens ih =>
    cases token with
    | Word word =>
      simp only [List.mem_cons, reduceCtorEq, false_or] at h hother
      exact ih honce h hother
    | Flag name first =>
      obtain ⟨hnew, hrest⟩ := List.nodup_cons.mp honce
      have hfirst : ¬ ∃ value, Token.Flag name value ∈ tokens :=
        fun h => hnew (mem_flag_spellings.mpr h)
      simp only [List.mem_cons, Token.Flag.injEq] at h hother
      obtain ⟨rfl, rfl⟩ | h := h
      · obtain ⟨_, rfl⟩ | hother := hother
        · rfl
        · exact absurd ⟨other, hother⟩ hfirst
      · obtain ⟨rfl, _⟩ | hother := hother
        · exact absurd ⟨value, h⟩ hfirst
        · exact ih hrest h hother

theorem find?_split (h : .Flag spelled value ∈ tokens) :
    ∃ row, (split tokens).flags.find? spelled = some row :=
  Table.contains_iff.mp (contains_foldl_take ⟨[], Table.empty⟩ (.inr ⟨value, h⟩))

/-- A flag that is not repeated is found with its value. -/
theorem flag_split (honce : (flag_spellings tokens).Nodup) {name : FlagName}
    (h : .Flag name.spelling.toList value ∈ tokens) : (split tokens).flag name = some value := by
  obtain ⟨row, hrow⟩ := find?_split h
  obtain hempty | hmem := find?_foldl_take ⟨[], Table.empty⟩ row hrow
  · cases hempty
  · rw [Args.flag, hrow, Option.map_some, value_unique honce h hmem]

theorem known_of_check {env : Environment} {verb : Verb}
    (h : (split tokens).check_known_flags env verb = .ok ()) (hmem : .Flag spelled value ∈ tokens) :
    ∃ name ∈ verb.flags, name.spelling.toList = spelled := by
  obtain ⟨row, hrow⟩ := find?_split hmem
  have hkey : spelled ∈ env.key_order ((split tokens).flags.rows.map Prod.fst) := by
    rw [(env.key_order_perm _).mem_iff, ← Table.key_of_find? hrow]
    exact List.mem_map_of_mem (Table.mem_of_find? hrow)
  unfold Args.check_known_flags at h
  dsimp only at h
  split at h
  · cases h
  · rename_i hnone
    have hknown := List.find?_eq_none.mp hnone spelled hkey
    simpa using hknown

end tokens

variable {env : Environment} {line : Text} {command : Command}

/-- What an accepted line is made of. -/
theorem parse_eq_ok (h : parse env line = .ok command) :
    ∃ verb word rest, tokens_of line = .Word word :: rest ∧
    (split rest).check_known_flags env verb = .ok () ∧
    verb.command env (split rest) = .ok command := by
  obtain ⟨tokens, htokens, h⟩ := bind_eq_ok.mp h
  have hline : tokens_of line = tokens := by
    unfold tokens_of
    cases hresult : tokenize line with
    | error err =>
      rw [hresult] at htokens
      cases htokens
    | ok found =>
      rw [hresult] at htokens
      cases htokens
      rfl
  unfold parse_tokens at h
  split at h
  · cases h
  · cases h
  · rename_i word rest
    split at h
    · cases h
    · rename_i verb hverb
      obtain ⟨⟨⟩, hknown, h⟩ := bind_eq_ok.mp h
      obtain ⟨⟨⟩, _, h⟩ := bind_eq_ok.mp h
      exact ⟨verb, word, rest, hline, hknown, h⟩

/-- The line of a command says what the command does if and only if no flag of it is repeated, no
switch has a value, and no flag that may be left out stands there without its value. -/
theorem consistent_iff_spelled (h : parse env line = .ok command) :
    Consistent env (tokens_of line) command ↔ Spelled (tokens_of line) := by
  constructor
  · intro hconsistent
    refine ⟨hconsistent.once, ?_, ?_⟩
    · intro name value hswitch hmem
      obtain ⟨other, hspelling, field, hmeans, _⟩ := hconsistent.effect _ value hmem
      cases FlagName.spelling_injective hspelling
      rw [FlagName.means, if_pos hswitch] at hmeans
      by_contra hvalue
      rw [if_neg hvalue] at hmeans
      cases hmeans
    · intro name hswitch _ hmem
      obtain ⟨other, hspelling, field, hmeans, _⟩ := hconsistent.effect _ none hmem
      cases FlagName.spelling_injective hspelling
      rw [FlagName.means, hswitch] at hmeans
      cases hmeans
  · intro hspelled
    refine ⟨hspelled.once, ?_⟩
    intro spelled value hmem
    obtain ⟨verb, word, rest, hline, hknown, hcommand⟩ := parse_eq_ok h
    obtain ⟨honce, hbare, hvalued⟩ := hspelled
    have hrest : .Flag spelled value ∈ rest := by
      simpa [hline] using hmem
    obtain ⟨name, hname, rfl⟩ := known_of_check hknown hrest
    have hnodup : (flag_spellings rest).Nodup := by
      rw [hline] at honce
      exact honce
    have hflag : (split rest).flag name = some value := flag_split hnodup hrest
    have hhonours := List.forall_iff_forall_mem.mp
      (Verb.honours verb hcommand) name hname value hflag
    refine ⟨name, rfl, ?_⟩
    cases hswitch : name.switch with
    | true =>
      refine ⟨.Bool true, ?_, hhonours.1 hswitch⟩
      rw [FlagName.means, if_pos hswitch, if_pos (hbare name value hswitch hmem)]
    | false =>
      obtain ⟨hmandatory, hread⟩ := hhonours.2 hswitch
      cases value with
      | none => exact absurd hmem (hvalued name hswitch (hmandatory rfl))
      | some raw =>
        obtain ⟨field, hfield⟩ := hread raw rfl
        refine ⟨field, ?_, hfield.2⟩
        rw [FlagName.means, hswitch]
        exact hfield.1

def Environment.sample : Environment where
  key_order keys := keys
  key_order_perm := List.Perm.refl
  trash_id _ := none
  read_to_string _ := .error "No such file or directory (os error 2)".toList
  from_str _ := .error "EOF while parsing a value at line 1 column 0".toList

theorem trash_consistent :
    ∃ command, parse Environment.sample "trash /a --expected-revision=3".toList = .ok command ∧
      Consistent Environment.sample
        (tokens_of "trash /a --expected-revision=3".toList) command := by
  refine ⟨_, rfl, (consistent_iff_spelled rfl).mpr ?_⟩
  have htokens : tokens_of "trash /a --expected-revision=3".toList =
      [.Word "trash".toList, .Word "/a".toList, .Flag FlagName.expected_revision.spelling.toList
        (some ['3'])] := rfl
  rw [htokens]
  refine ⟨by decide, ?_, ?_⟩
  · intro name value hswitch hmem
    simp only [List.mem_cons, List.not_mem_nil, or_false, reduceCtorEq, false_or,
      Token.Flag.injEq] at hmem
    cases FlagName.spelling_injective hmem.1
    cases hswitch
  · intro name _ _ hmem
    simp only [List.mem_cons, List.not_mem_nil, or_false, reduceCtorEq, Token.Flag.injEq,
      and_false] at hmem

/-- A switch that is set to `false` is on. -/
theorem switch_set_to_false :
    ¬ ∀ line command, parse Environment.sample line = .ok command →
      Consistent Environment.sample (tokens_of line) command := by
  intro h
  have hconsistent := h "rm /a --recursive=false".toList _ rfl
  obtain ⟨name, hspelling, field, hmeans, _⟩ :=
    hconsistent.effect FlagName.recursive.spelling.toList (some "false".toList) (by decide)
  cases FlagName.spelling_injective hspelling
  cases hmeans

end fslite.parser
