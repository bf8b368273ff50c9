import Fslite.Command.Lexer
import Fslite.Sqlite.ContentSearch
import Fslite.Url

namespace fslite.parser

open lexer http

/-- The verbs of the table. -/
inductive Verb where
  | usage
  | stat
  | exists_
  | ls
  | tree
  | mkdir
  | cat
  | write
  | write_at
  | append
  | truncate
  | touch
  | cp
  | mv
  | rm
  | ln
  | readlink
  | trash
  | trash_ls
  | restore
  | purge
  | setattr
  | rmattr
  | glob
  | find
  | grep
  | changes
  | batch
  deriving DecidableEq

/-- The flags that some verb knows. -/
inductive FlagName where
  | expected_revision
  | cursor
  | limit
  | max_depth
  | range
  | text
  | offset
  | length
  | to
  | value
  | name_contains
  | kind
  | min_size
  | max_size
  | modified_after
  | modified_before
  | after
  | file
  | recursive
  | overwrite
  | parents
  | exist_ok
  | no_create
  | no_follow
  | follow_symlinks
  deriving DecidableEq

def Verb.spelling : Verb → String
  | .usage => "usage"
  | .stat => "stat"
  | .exists_ => "exists"
  | .ls => "ls"
  | .tree => "tree"
  | .mkdir => "mkdir"
  | .cat => "cat"
  | .write => "write"
  | .write_at => "write-at"
  | .append => "append"
  | .truncate => "truncate"
  | .touch => "touch"
  | .cp => "cp"
  | .mv => "mv"
  | .rm => "rm"
  | .ln => "ln"
  | .readlink => "readlink"
  | .trash => "trash"
  | .trash_ls => "trash-ls"
  | .restore => "restore"
  | .purge => "purge"
  | .setattr => "setattr"
  | .rmattr => "rmattr"
  | .glob => "glob"
  | .find => "find"
  | .grep => "grep"
  | .changes => "changes"
  | .batch => "batch"

def Verb.all : List Verb :=
  [.usage, .stat, .exists_, .ls, .tree, .mkdir, .cat, .write, .write_at, .append, .truncate, .touch,
    .cp, .mv, .rm, .ln,
    .readlink, .trash, .trash_ls, .restore, .purge, .setattr, .rmattr, .glob, .find, .grep,
      .changes, .batch]

def Verb.of_word (word : Text) : Option Verb :=
  Verb.all.find? (fun verb => verb.spelling.toList = word)

def FlagName.spelling : FlagName → String
  | .expected_revision => "expected-revision"
  | .cursor => "cursor"
  | .limit => "limit"
  | .max_depth => "max-depth"
  | .range => "range"
  | .text => "text"
  | .offset => "offset"
  | .length => "length"
  | .to => "to"
  | .value => "value"
  | .name_contains => "name-contains"
  | .kind => "kind"
  | .min_size => "min-size"
  | .max_size => "max-size"
  | .modified_after => "modified-after"
  | .modified_before => "modified-before"
  | .after => "after"
  | .file => "file"
  | .recursive => "recursive"
  | .overwrite => "overwrite"
  | .parents => "parents"
  | .exist_ok => "exist-ok"
  | .no_create => "no-create"
  | .no_follow => "no-follow"
  | .follow_symlinks => "follow-symlinks"

/-- The flags that a verb knows. -/
@[simp] def Verb.flags : Verb → List FlagName
  | .usage | .readlink | .purge => []
  | .stat | .exists_ => [.no_follow]
  | .ls | .trash_ls | .glob | .grep => [.cursor, .limit]
  | .tree => [.max_depth, .follow_symlinks, .cursor, .limit]
  | .mkdir | .ln => [.parents, .exist_ok, .expected_revision]
  | .cat => [.range, .no_follow]
  | .write => [.text, .no_create, .expected_revision]
  | .write_at => [.offset, .text, .no_create, .expected_revision]
  | .append => [.text, .expected_revision]
  | .truncate => [.length, .expected_revision]
  | .touch => [.no_create, .expected_revision]
  | .cp => [.recursive, .overwrite, .expected_revision]
  | .mv => [.overwrite, .expected_revision]
  | .rm => [.recursive, .expected_revision]
  | .trash | .rmattr => [.expected_revision]
  | .restore => [.to, .expected_revision]
  | .setattr => [.value, .expected_revision]
  | .find => [.name_contains, .kind, .min_size, .max_size, .modified_after, .modified_before,
    .cursor, .limit]
  | .changes => [.after, .cursor, .limit]
  | .batch => [.file]

/-- The number of positional arguments that a verb accepts. -/
def Verb.arity : Verb → Nat
  | .usage | .trash_ls | .changes | .batch => 0
  | .cp | .mv | .ln | .setattr | .rmattr | .grep => 2
  | _ => 1

/-- An operation, as its arguments say it. -/
inductive Command where
  | WorkspaceUsage
  | Stat (path : VirtualPath) (follow_symlinks : Bool)
  | Exists (path : VirtualPath) (follow_symlinks : Bool)
  | ReadDir (path : VirtualPath) (page : PageRequest)
  | Tree (path : VirtualPath) (options : directory.TreeOptions) (page : PageRequest)
  | Mkdir (path : VirtualPath) (options : CreateOptions)
  | Read (path : VirtualPath) (options : ReadOptions)
  | Write (path : VirtualPath) (bytes : Bytes) (options : WriteOptions)
  | WriteAt (path : VirtualPath) (offset : Nat) (bytes : Bytes) (options : WriteOptions)
  | Append (path : VirtualPath) (bytes : Bytes) (options : WriteOptions)
  | Truncate (path : VirtualPath) (length : Nat) (options : MutationOptions)
  | Touch (path : VirtualPath) (options : TouchOptions)
  | Copy (source target : VirtualPath) (options : CopyOptions)
  | Move (source target : VirtualPath) (options : MoveOptions)
  | Remove (path : VirtualPath) (options : RemoveOptions)
  | Symlink (target : LinkTarget) (link : VirtualPath) (options : CreateOptions)
  | ReadLink (path : VirtualPath)
  | Trash (path : VirtualPath) (options : MutationOptions)
  | ListTrash (page : PageRequest)
  | Restore (trash : TrashId) (destination : Option VirtualPath) (options : MutationOptions)
  | Purge (trash : TrashId)
  | SetAttribute (path : VirtualPath) (key : Text) (value : Bytes) (options : MutationOptions)
  | RemoveAttribute (path : VirtualPath) (key : Text) (options : MutationOptions)
  | Glob (pattern : Text) (page : PageRequest)
  | Find (query : FindQuery) (page : PageRequest)
  | SearchContent (query : ContentQuery) (page : PageRequest)
  | Changes (after : Option ChangeCursor) (page : PageRequest)
  | Batch (operations : List BatchOperation)

/-- Why a line could not be parsed. -/
inductive ParseError where
  | Lex (err : LexError)
  | UnknownVerb (verb : Text)
  | MissingArgument (verb name : String)
  | InvalidArgument (verb name : String) (reason : Text)
  | UnknownFlag (verb : String) (flag : Text)
  | TooManyArguments (verb : String) (expected actual : Nat)

/-- What the parser takes from outside: the order in which a hash map gives its keys, the reader of
identifiers, the files, and the reader of the operations of a batch. -/
structure Environment where
  key_order : List Text → List Text
  key_order_perm : ∀ keys, (key_order keys).Perm keys
  trash_id : Text → Option TrashId
  read_to_string : Text → Except Text Text
  from_str : Text → Except Text (List BatchOperation)

/-- The standard parser of signed numbers of 64 bits. -/
def parse_int (text : Text) : Option Int :=
  match text with
  | '-' :: digits =>
    if digits.head? = some '+' then none else (parse_uint (2 ^ 63) digits).map (fun n => -(n : Int))
  | _ => (parse_uint (2 ^ 63 - 1) text).map Int.ofNat

structure Args where
  positionals : List Text
  flags : Table (Prod.fst : Text × Option Text → Text)

def Args.take (args : Args) : Token → Args
  | .Word word => { args with positionals := args.positionals ++ [word] }
  | .Flag name value => { args with flags := args.flags.upsert (name, value) }

def split (tokens : List Token) : Args := tokens.foldl Args.take ⟨[], Table.empty⟩

def invalid {A : Type} (verb : Verb) (name : String) (reason : Text) : Except ParseError A :=
  .error (.InvalidArgument verb.spelling name reason)

def parse_path (verb : Verb) (name : String) (raw : Text) : Except ParseError VirtualPath :=
  let parsed := if raw.head? = some '/' then VirtualPath.parse raw else VirtualPath.root.join raw
  parsed.mapError (fun e => .InvalidArgument verb.spelling name e.message)

def parse_glob_pattern (raw : Text) : Except ParseError Text :=
  ((VirtualPath.root.join (raw.dropWhile (fun c => c = '/'))).map VirtualPath.as_str).mapError
    (fun e => .InvalidArgument "glob" "pattern" e.message)

namespace Args

variable (env : Environment) (args : Args) (verb : Verb)

/-- What the last occurrence of a flag came with. -/
def flag (name : FlagName) : Option (Option Text) :=
  (args.flags.find? name.spelling.toList).map Prod.snd

def positional (index : Nat) (name : String) : Except ParseError Text :=
  match args.positionals[index]? with
  | some raw => .ok raw
  | none => .error (.MissingArgument verb.spelling name)

def has_flag (name : FlagName) : Bool := (args.flag name).isSome

def flag_value (name : FlagName) : Option Text := (args.flag name).join

local instance lawful_flags : LawfulBEq Text := inferInstance

def check_known_flags : Except ParseError Unit :=
  let known := verb.flags.map (fun name => name.spelling.toList)
  match (env.key_order (args.flags.rows.map Prod.fst)).find? (fun flag => flag ∉ known) with
  | some flag => .error (.UnknownFlag verb.spelling flag)
  | none => .ok ()

def check_positional_arity : Except ParseError Unit :=
  if verb.arity < args.positionals.length then
    .error (.TooManyArguments verb.spelling verb.arity args.positionals.length)
  else .ok ()

/-- `flag_value(..).map(..).transpose()`. -/
def optional {A : Type} (name : FlagName) (read : Text → Except ParseError A) :
    Except ParseError (Option A) :=
  match args.flag_value name with
  | none => .ok none
  | some raw => (read raw).map some

/-- `flag_value(..).ok_or(MissingArgument ..)`. -/
def required (name : FlagName) (missing : String) : Except ParseError Text :=
  match args.flag_value name with
  | none => .error (.MissingArgument verb.spelling missing)
  | some raw => .ok raw

def expected_revision : Except ParseError (Option Revision) :=
  args.optional .expected_revision (fun raw =>
    match parse_uint U64_MAX raw with
    | none => invalid verb "expected-revision" "must be a non-negative integer".toList
    | some value =>
      match Revision.new value with
      | none => invalid verb "expected-revision" "must be nonzero".toList
      | some revision => .ok revision)

/-- A number in a flag. -/
def unsigned (max : Nat) (name : FlagName) (raw : Text) : Except ParseError Nat :=
  match parse_uint max raw with
  | some n => .ok n
  | none => invalid verb name.spelling "must be a non-negative integer".toList

def signed (name : FlagName) (raw : Text) : Except ParseError Int :=
  match parse_int raw with
  | some n => .ok n
  | none => invalid verb name.spelling "must be an integer".toList

def page : Except ParseError PageRequest := do
  let page : PageRequest := { cursor := args.flag_value .cursor }
  match args.flag_value .limit with
  | none => return page
  | some raw =>
    let limit ← unsigned verb U32_MAX .limit raw
    return { page with limit }

def path (index : Nat) (name : String) : Except ParseError VirtualPath := do
  let raw ← args.positional verb index name
  parse_path verb name raw

def trash_id : Except ParseError TrashId := do
  let raw ← args.positional verb 0 "trash-id"
  match env.trash_id raw with
  | some trash => return trash
  | none => invalid verb "trash-id" "not a valid id".toList

end Args

/-- The value of `--range`. -/
def parse_range (raw : Text) : Except ParseError ByteRange :=
  match split_once '-' raw with
  | none => invalid .cat "range" "expected START-END".toList
  | some (start, end_) =>
    match parse_uint U64_MAX start with
    | none => invalid .cat "range" "invalid start".toList
    | some start =>
      match parse_uint U64_MAX end_ with
      | none => invalid .cat "range" "invalid end".toList
      | some end_ => .ok ⟨start, end_⟩

/-- The value of `--kind`. -/
def parse_kind (raw : Text) : Except ParseError NodeKind :=
  if raw = "file".toList then .ok .File
  else if raw = "directory".toList then .ok .Directory
  else if raw = "symlink".toList then .ok .Symlink
  else invalid .find "kind" ("unknown kind \x60".toList ++ raw ++ ['\x60'])

/-- The value of `--file`. -/
def parse_batch (env : Environment) (file : Text) : Except ParseError (List BatchOperation) := do
  let contents ← (env.read_to_string file).mapError
    (ParseError.InvalidArgument Verb.batch.spelling "file")
  (env.from_str contents).mapError (ParseError.InvalidArgument Verb.batch.spelling "file")

/-- The arm of a verb, once its flags are known and its arguments are not too many. -/
def Verb.command (env : Environment) (args : Args) : Verb → Except ParseError Command
  | .usage => return .WorkspaceUsage
  | .stat => do
    let path ← args.path .stat 0 "path"
    return .Stat path (! args.has_flag .no_follow)
  | .exists_ => do
    let path ← args.path .exists_ 0 "path"
    return .Exists path (! args.has_flag .no_follow)
  | .ls => do
    let path ← args.path .ls 0 "path"
    let page ← args.page .ls
    return .ReadDir path page
  | .tree => do
    let path ← args.path .tree 0 "path"
    let max_depth ← args.optional .max_depth (Args.unsigned .tree U32_MAX .max_depth)
    let page ← args.page .tree
    return .Tree path { max_depth, follow_symlinks := args.has_flag .follow_symlinks } page
  | .mkdir => do
    let path ← args.path .mkdir 0 "path"
    let expected_revision ← args.expected_revision .mkdir
    return .Mkdir path
      { parents := args.has_flag .parents, exist_ok := args.has_flag .exist_ok, expected_revision }
  | .cat => do
    let path ← args.path .cat 0 "path"
    let range ← args.optional .range parse_range
    return .Read path { range, follow_symlinks := ! args.has_flag .no_follow }
  | .write => do
    let path ← args.path .write 0 "path"
    let text ← args.required .write .text "--text (or another payload source)"
    let expected_revision ← args.expected_revision .write
    return .Write path (Url.utf8 text) { create := ! args.has_flag .no_create, expected_revision }
  | .write_at => do
    let path ← args.path .write_at 0 "path"
    let raw ← args.required .write_at .offset "--offset"
    let offset ← Args.unsigned .write_at U64_MAX .offset raw
    let text ← args.required .write_at .text "--text"
    let expected_revision ← args.expected_revision .write_at
    return .WriteAt path offset (Url.utf8 text)
      { create := ! args.has_flag .no_create, expected_revision }
  | .append => do
    let path ← args.path .append 0 "path"
    let text ← args.required .append .text "--text"
    let expected_revision ← args.expected_revision .append
    return .Append path (Url.utf8 text) { expected_revision }
  | .truncate => do
    let path ← args.path .truncate 0 "path"
    let raw ← args.required .truncate .length "--length"
    let length ← Args.unsigned .truncate U64_MAX .length raw
    let expected_revision ← args.expected_revision .truncate
    return .Truncate path length { expected_revision }
  | .touch => do
    let path ← args.path .touch 0 "path"
    let expected_revision ← args.expected_revision .touch
    return .Touch path { create := ! args.has_flag .no_create, expected_revision }
  | .cp => do
    let source ← args.path .cp 0 "from"
    let target ← args.path .cp 1 "to"
    let expected_revision ← args.expected_revision .cp
    return .Copy source target
      { recursive := args.has_flag .recursive, overwrite :=
        args.has_flag .overwrite, expected_revision }
  | .mv => do
    let source ← args.path .mv 0 "from"
    let target ← args.path .mv 1 "to"
    let expected_revision ← args.expected_revision .mv
    return .Move source target { overwrite := args.has_flag .overwrite, expected_revision }
  | .rm => do
    let path ← args.path .rm 0 "path"
    let expected_revision ← args.expected_revision .rm
    return .Remove path { recursive := args.has_flag .recursive, expected_revision }
  | .ln => do
    let target_raw ← args.positional .ln 0 "target"
    let link_raw ← args.positional .ln 1 "link"
    let target ← (LinkTarget.parse target_raw).mapError
      (fun e => .InvalidArgument "ln" "target" e.message)
    let link ← parse_path .ln "link" link_raw
    let expected_revision ← args.expected_revision .ln
    return .Symlink target link
      { parents := args.has_flag .parents, exist_ok := args.has_flag .exist_ok, expected_revision }
  | .readlink => do
    let path ← args.path .readlink 0 "path"
    return .ReadLink path
  | .trash => do
    let path ← args.path .trash 0 "path"
    let expected_revision ← args.expected_revision .trash
    return .Trash path { expected_revision }
  | .trash_ls => do
    let page ← args.page .trash_ls
    return .ListTrash page
  | .restore => do
    let trash ← args.trash_id env .restore
    let destination ← args.optional .to (parse_path .restore "to")
    let expected_revision ← args.expected_revision .restore
    return .Restore trash destination { expected_revision }
  | .purge => do
    let trash ← args.trash_id env .purge
    return .Purge trash
  | .setattr => do
    let path ← args.path .setattr 0 "path"
    let key ← args.positional .setattr 1 "key"
    let value ← args.required .setattr .value "--value"
    let expected_revision ← args.expected_revision .setattr
    return .SetAttribute path key (Url.utf8 value) { expected_revision }
  | .rmattr => do
    let path ← args.path .rmattr 0 "path"
    let key ← args.positional .rmattr 1 "key"
    let expected_revision ← args.expected_revision .rmattr
    return .RemoveAttribute path key { expected_revision }
  | .glob => do
    let raw ← args.positional .glob 0 "pattern"
    let pattern ← parse_glob_pattern raw
    let page ← args.page .glob
    return .Glob pattern page
  | .find => do
    let root ← args.path .find 0 "root"
    let kind ← args.optional .kind parse_kind
    let min_logical_size ← args.optional .min_size (Args.unsigned .find U64_MAX .min_size)
    let max_logical_size ← args.optional .max_size (Args.unsigned .find U64_MAX .max_size)
    let modified_after_ms ← args.optional .modified_after (Args.signed .find .modified_after)
    let modified_before_ms ← args.optional .modified_before (Args.signed .find .modified_before)
    let name_contains := args.flag_value .name_contains
    let page ← args.page .find
    return .Find
      { root, name_contains, kind, min_logical_size, max_logical_size, modified_after_ms,
        modified_before_ms } page
  | .grep => do
    let root ← args.path .grep 0 "root"
    let needle ← args.positional .grep 1 "needle"
    let page ← args.page .grep
    return .SearchContent { root, needle := Url.utf8 needle } page
  | .changes => do
    let page ← args.page .changes
    return .Changes ((args.flag_value .after).map ChangeCursor.mk) page
  | .batch => do
    let file ← args.required .batch .file "--file"
    let operations ← parse_batch env file
    return .Batch operations

/-- The verb and the arguments of a list of tokens. -/
def parse_tokens (env : Environment) : List Token → Except ParseError Command
  | [] => .error (.MissingArgument "<line>" "verb")
  | .Flag name _ :: _ => .error (.UnknownVerb ("--".toList ++ name))
  | .Word word :: rest =>
    match Verb.of_word word with
    | none => .error (.UnknownVerb word)
    | some verb => do
      let args := split rest
      args.check_known_flags env verb
      args.check_positional_arity verb
      verb.command env args

/-- Parses one line of the grammar into a command. -/
def parse (env : Environment) (line : Text) : Except ParseError Command := do
  let tokens ← (tokenize line).mapError ParseError.Lex
  parse_tokens env tokens

end fslite.parser
