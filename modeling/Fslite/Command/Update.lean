import Fslite.Command.Encoding
import Fslite.Command.Range
import Fslite.Sqlite.Pieces
import Fslite.Sqlite.Run.Absent

namespace fslite

open Url (Plain)
open routes

theorem Api.ofResult_bind {A B : Type} (a : A) (f : A → Api B) :
    Api.ofResult (.ok a) >>= f = f a := rfl

/-- The commands that write a file or make a directory at the path. -/
inductive Command.Updates (p : VirtualPath) : Command → Prop where
  | Write (bytes : Bytes) (options : WriteOptions) : Updates p (.Write p bytes options)
  | WriteAt (offset : Nat) (bytes : Bytes) (options : WriteOptions) :
    Updates p (.WriteAt p offset bytes options)
  | Append (bytes : Bytes) (options : WriteOptions) : Updates p (.Append p bytes options)
  | Truncate (length : Nat) (options : MutationOptions) : Updates p (.Truncate p length options)
  | Touch (options : TouchOptions) : Updates p (.Touch p options)
  | Mkdir (options : CreateOptions) : Updates p (.Mkdir p options)

/-- The numbers of a command fit their type. -/
def Command.Fits : Command → Prop
  | .Write _ _ options => RevisionFits options.expected_revision
  | .WriteAt _ offset _ options => offset ≤ U64_MAX ∧ RevisionFits options.expected_revision
  | .Append _ _ options => RevisionFits options.expected_revision
  | .Truncate _ length options => length ≤ U64_MAX ∧ RevisionFits options.expected_revision
  | .Touch _ options => RevisionFits options.expected_revision
  | .Mkdir _ options => RevisionFits options.expected_revision
  | _ => True

/-- What the server is told of a command: a write to a part of a file does not say whether the
file may be created. -/
def Command.told : Command → Command
  | .WriteAt path offset bytes options =>
    .WriteAt path offset bytes { options with create := true }
  | .Append path bytes options => .Append path bytes { options with create := true }
  | command => command

/-- The writes to a part of a file that may not be created, for which the server creates it or
tries to. -/
def Command.Misses (db : Db) (ctx : RequestContext) : Command → Prop
  | .WriteAt path offset bytes options =>
    options.create = false ∧ db.Lacks ctx path (offset + bytes.length)
  | .Append path bytes options => options.create = false ∧ db.Lacks ctx path bytes.length
  | _ => False

/-- A handler that makes one call and answers with its node. -/
def Api.of_node (method : Task Node) : Api http.Response := do
  let node ← Api.fs method
  return node_response node

section handlers

variable {lib : http.Libraries} {rt : Runtime} {ctx : RequestContext} {p : VirtualPath}
  {pieces : List Bytes}

theorem routes.write_eq {options : WriteOptions}
    (hrevision : RevisionFits options.expected_revision) :
    routes.write rt ctx p (RemoteExecutor.Command.query (.Write p pieces.flatten options)) pieces =
      Api.of_node (SqliteFileSystem.write rt ctx p [.ok pieces.flatten] options) := by
  have hcreate : query_bool (RemoteExecutor.Command.query (.Write p pieces.flatten options))
    "create".toList true = .ok options.create := query_bool_read (by decide) _ _
  have hexpected : query_revision (RemoteExecutor.Command.query (.Write p pieces.flatten options)) =
    .ok options.expected_revision := query_revision_read (by decide) hrevision
  rw [routes.write, hcreate, hexpected]
  simp only [Api.ofResult_bind, body_write_source, SqliteFileSystem.write_whole]
  rfl

theorem routes.write_at_eq {offset : Nat} {options : WriteOptions} (hoffset : offset ≤ U64_MAX)
    (hrevision : RevisionFits options.expected_revision) :
    routes.write_at rt ctx p
      (RemoteExecutor.Command.query (.WriteAt p offset pieces.flatten options)) pieces =
      Api.of_node (SqliteFileSystem.write_at rt ctx p offset [.ok pieces.flatten]
        { options with create := true }) := by
  have hget : get (RemoteExecutor.Command.query (.WriteAt p offset pieces.flatten options))
    "offset".toList = some (decimal offset) := get_first (by decide)
  have hread : routes.offset
      (RemoteExecutor.Command.query (.WriteAt p offset pieces.flatten options)) = .ok offset := by
    unfold routes.offset
    simp only [hget, parse_uint_decimal hoffset]
  have hexpected : query_revision
    (RemoteExecutor.Command.query (.WriteAt p offset pieces.flatten options)) =
      .ok options.expected_revision := query_revision_read (by decide) hrevision
  rw [routes.write_at, hread, hexpected]
  simp only [Api.ofResult_bind, body_write_source, SqliteFileSystem.write_at_whole]
  rfl

theorem routes.append_eq {options : WriteOptions}
    (hrevision : RevisionFits options.expected_revision) :
    routes.post_content lib rt ctx p
      (RemoteExecutor.Command.query (.Append p pieces.flatten options)) pieces =
      Api.of_node (SqliteFileSystem.append rt ctx p [.ok pieces.flatten]
        { options with create := true }) := by
  have haction : get (RemoteExecutor.Command.query (.Append p pieces.flatten options))
    "action".toList = some "append".toList := get_first (by decide)
  have hexpected : query_revision
    (RemoteExecutor.Command.query (.Append p pieces.flatten options)) =
      .ok options.expected_revision := query_revision_read (by decide) hrevision
  rw [routes.post_content, haction]
  simp only [if_true, hexpected, Api.ofResult_bind, body_write_source,
    SqliteFileSystem.append_whole]
  rfl

theorem routes.truncate_eq {length : Nat} {options : MutationOptions} (hlength : length ≤ U64_MAX)
    (hrevision : RevisionFits options.expected_revision)
    (hlib : ∀ object, RemoteExecutor.Command.json (.Truncate p length options) = some object →
      lib.Carries object)
    (hpieces : pieces.flatten = RemoteExecutor.Command.body lib (.Truncate p length options)) :
    routes.post_content lib rt ctx p
      (RemoteExecutor.Command.query (.Truncate p length options)) pieces =
      Api.of_node (SqliteFileSystem.truncate rt ctx p length options) := by
  have haction : get (RemoteExecutor.Command.query (.Truncate p length options)) "action".toList =
    some "truncate".toList := rfl
  have hshort : ¬ MAX_TRUNCATE_BODY_BYTES <
    (RemoteExecutor.Command.body lib (.Truncate p length options)).length :=
      not_lt.mpr (hlib _ rfl).short
  rw [routes.post_content, haction, hpieces]
  simp only [if_neg hshort]
  rw [if_neg (by decide), if_pos trivial, truncate_body_read hlength hrevision hlib]
  simp only [Api.ofResult_bind, revision_from_read]
  rfl

theorem routes.touch_eq {options : TouchOptions}
    (hrevision : RevisionFits options.expected_revision)
    (hlib : ∀ object, RemoteExecutor.Command.json (.Touch p options) = some object →
      lib.Carries object) :
    routes.patch_node lib rt ctx p (RemoteExecutor.Command.body lib (.Touch p options)) =
      Api.of_node (SqliteFileSystem.touch rt ctx p options) := by
  rw [routes.patch_node, patch_body_read hrevision hlib]
  simp only [Api.ofResult_bind, revision_from_read]
  rfl

theorem routes.mkdir_eq {options : CreateOptions}
    (hrevision : RevisionFits options.expected_revision)
    (hlib : ∀ object, RemoteExecutor.Command.json (.Mkdir p options) = some object →
      lib.Carries object) :
    routes.put_node lib rt ctx p (RemoteExecutor.Command.query (.Mkdir p options))
      (RemoteExecutor.Command.body lib (.Mkdir p options)) =
      Api.of_node (SqliteFileSystem.mkdir rt ctx p options) := by
  have htype : get (RemoteExecutor.Command.query (.Mkdir p options)) "type".toList =
    some "directory".toList := rfl
  have hne : RemoteExecutor.Command.body lib (.Mkdir p options) ≠ [] := (hlib _ rfl).nonempty
  rw [routes.put_node, htype]
  simp only [if_true, if_neg hne]
  rw [mkdir_body_read hrevision hlib]
  simp only [Api.ofResult_bind, revision_from_read]
  rfl

end handlers

/-- What a `mkdir` sends that makes the parents. -/
def parentsObject : http.Object := [("parents".toList, .bool true),
  ("exist_ok".toList, .bool false), ("expected_revision".toList, .null)]

/-- The library writes the fields in the order of their names, and reads them in that order. -/
def parentsJson : Bytes :=
  Url.utf8 "\x7b\"exist_ok\":false,\"expected_revision\":null,\"parents\":true\x7d".toList

def parentsFields : http.Object := [("exist_ok".toList, .bool false),
  ("expected_revision".toList, .null), ("parents".toList, .bool true)]

namespace Server

variable {server : Server} {self : RemoteExecutor} {ctx : RequestContext} {w : World}
  {p : VirtualPath}

/-- A command whose handler makes one call and answers with its node. -/
theorem update_run (hknows : server.Knows self ctx) {command : Command} {handler : Handler}
    {method : Task Node} (hp : command.path ≠ .root) (hplain : Plain command.path.as_str)
    (hsent : server.remotely self ctx command =
      CommandOutput.Node <$> self.send_node server.lib server.answer ctx command)
    {rest : Text} (hrest : command.path.as_str = '/' :: rest)
    {handle : Text → Except ApiError (Handler × Text)}
    (hdispatch : dispatch (routes.Command.resource command)
      (RemoteExecutor.Command.method command) = some handle)
    (hending : routes.Command.ending command = [])
    (hhandle : handle rest = .ok (handler, rest))
    (hmethod : routes.handle server.lib server.rt server.views ⟨ctx, handler, command.path⟩
      (RemoteExecutor.Command.query command) (RemoteExecutor.Command.range command)
      (server.pieces (RemoteExecutor.Command.body server.lib command)) = Api.of_node method) :
    (server.remotely self ctx command).run.run (DbCall.exec server.rt) w =
      (CommandOutput.Node <$> method : Task CommandOutput).run.run (DbCall.exec server.rt) w := by
  have harrives := locate_path command hknows.standard hknows.grants hp hplain hdispatch
    hrest hending hhandle
  rw [hsent, Failing.run_map, Failing.run_map, send_node_run ((answer_eq hknows.standard command
    hp hplain hending harrives).trans (congrArg Api.respond hmethod))]

/-- What a client's command does at the server is what the server is told to do. -/
theorem told_run (hknows : server.Knows self ctx) (hp : p ≠ .root) (hplain : Plain p.as_str)
    {command : Command} (hupdates : command.Updates p) (hfits : command.Fits)
    (hlib : ∀ object, RemoteExecutor.Command.json command = some object →
      server.lib.Carries object) :
    (server.remotely self ctx command).run.run (DbCall.exec server.rt) w =
      (server.locally ctx command.told).run.run (DbCall.exec server.rt) w := by
  obtain ⟨rest, hrest, _⟩ := VirtualPath.as_str_eq hp
  have hwhole := hknows.whole
  cases hupdates with
  | Write bytes options =>
    have heq := @routes.write_eq server.rt ctx p (server.pieces bytes) options hfits
    rw [hwhole] at heq
    exact update_run hknows hp hplain rfl hrest rfl rfl rfl heq
  | WriteAt offset bytes options =>
    have heq := @routes.write_at_eq server.rt ctx p (server.pieces bytes) offset options hfits.1
      hfits.2
    rw [hwhole] at heq
    exact update_run hknows hp hplain rfl hrest rfl rfl rfl heq
  | Append bytes options =>
    have heq := @routes.append_eq server.lib server.rt ctx p (server.pieces bytes) options hfits
    rw [hwhole] at heq
    exact update_run hknows hp hplain rfl hrest rfl rfl rfl heq
  | Truncate length options =>
    exact update_run hknows hp hplain rfl hrest rfl rfl rfl
      (routes.truncate_eq hfits.1 hfits.2 hlib (hwhole _))
  | Touch options =>
    refine update_run hknows hp hplain rfl hrest rfl rfl rfl ?_
    exact (congrArg (routes.patch_node _ _ _ _) (hwhole _)).trans (routes.touch_eq hfits hlib)
  | Mkdir options =>
    refine update_run hknows hp hplain rfl hrest rfl rfl rfl ?_
    exact (congrArg (routes.put_node _ _ _ _ _) (hwhole _)).trans (routes.mkdir_eq hfits hlib)

theorem end_alike_node {method method' : Task Node} :
    EndAlike
      ((CommandOutput.Node <$> method : Task CommandOutput).run.run (DbCall.exec server.rt) w)
      ((CommandOutput.Node <$> method' : Task CommandOutput).run.run (DbCall.exec server.rt) w) ↔
    EndAlike (method.run.run (DbCall.exec server.rt) w)
      (method'.run.run (DbCall.exec server.rt) w) := by
  rw [Failing.run_map, Failing.run_map]
  exact EndAlike.map_iff (fun _ _ h => CommandOutput.Node.inj h)

/-- It matters whether a file may be created exactly where it could be. -/
theorem write_at_locally (hreach : Reachable server.rt w) (offset : Nat) (bytes : Bytes)
    (expected : Option Revision) :
    EndAlike
      ((server.locally ctx (.WriteAt p offset bytes ⟨true, expected⟩)).run.run
        (DbCall.exec server.rt) w)
      ((server.locally ctx (.WriteAt p offset bytes ⟨false, expected⟩)).run.run
        (DbCall.exec server.rt) w) ↔
    ¬ w.db.Lacks ctx p (offset + bytes.length) := by
  have hcreated := @SqliteFileSystem.write_at_created server.rt ctx w p expected hreach offset
    [bytes] _ _ rfl rfl
  rw [List.flatten_singleton] at hcreated
  exact end_alike_node.trans hcreated

theorem append_locally (hreach : Reachable server.rt w) (bytes : Bytes)
    (expected : Option Revision) :
    EndAlike
      ((server.locally ctx (.Append p bytes ⟨true, expected⟩)).run.run (DbCall.exec server.rt) w)
      ((server.locally ctx (.Append p bytes ⟨false, expected⟩)).run.run (DbCall.exec server.rt) w) ↔
    ¬ w.db.Lacks ctx p bytes.length := by
  have hcreated := @SqliteFileSystem.append_created server.rt ctx w p expected hreach
    [bytes] _ _ rfl rfl
  rw [List.flatten_singleton] at hcreated
  exact end_alike_node.trans hcreated

/-- A client's command and the same command in the filesystem's own process end with the same node
or with errors of the same code, and leave the same store, unless it writes to a part of a file
that is not there and may not be created, and the file has its place. -/
theorem update_agrees_iff (hknows : server.Knows self ctx) (hp : p ≠ .root)
    (hplain : Plain p.as_str) (hreach : Reachable server.rt w) {command : Command}
    (hupdates : command.Updates p) (hfits : command.Fits) (hlib : ∀ object, RemoteExecutor.Command.json command = some object →
      server.lib.Carries object) :
    EndAlike ((server.remotely self ctx command).run.run (DbCall.exec server.rt) w)
      ((server.locally ctx command).run.run (DbCall.exec server.rt) w) ↔
    ¬ command.Misses w.db ctx := by
  rw [told_run hknows hp hplain hupdates hfits hlib]
  cases hupdates with
  | WriteAt offset bytes options =>
    obtain ⟨create, expected⟩ := options
    cases create with
    | true => exact iff_of_true (EndAlike.refl _) (fun h => Bool.false_ne_true h.1.symm)
    | false =>
      exact (write_at_locally hreach offset bytes expected).trans
        (not_congr (and_iff_right rfl).symm)
  | Append bytes options =>
    obtain ⟨create, expected⟩ := options
    cases create with
    | true => exact iff_of_true (EndAlike.refl _) (fun h => Bool.false_ne_true h.1.symm)
    | false =>
      exact (append_locally hreach bytes expected).trans (not_congr (and_iff_right rfl).symm)
  | _ => exact iff_of_true (EndAlike.refl _) id

/-- A server whose network cuts a body behind its first byte, and whose JSON library knows one
object and its text. -/
def parting : Server where
  lib := { http.Libraries.sample with
    to_vec := fun object => if object = parentsObject then parentsJson else []
    from_slice := fun body => if body = parentsJson then some parentsFields else none }
  state := .sample
  rt := Runtime.counting
  views := sample.views
  pieces := fun body => [body.take 1, body.drop 1]

theorem parting_knows : parting.Knows .sample (.trusted 0) where
  standard := {
    path := http.Libraries.sample_standard.path
    query := http.Libraries.sample_standard.query
    captures := http.Libraries.sample_standard.captures
    decodes := http.Libraries.sample_standard.decodes
    parses := http.Libraries.sample_standard.parses }
  grants := AppState.sample_grants
  whole := fun body => by
    show (body.take 1 ++ (body.drop 1 ++ [])) = body
    rw [List.append_nil, List.take_append_drop]

theorem parting_carries : parting.lib.Carries parentsObject where
  read := ⟨parentsFields, rfl, by decide⟩
  nonempty := by decide
  short := by decide

end Server

/-- Two bytes that come in two pieces are appended to the file that is there, and a directory is
made with its parent. -/
theorem appended_and_made :
    EndAlike
      ((Server.parting.remotely .sample (.trusted 0) (.Append storedPath [4, 5]
        ⟨false, none⟩)).run.run (DbCall.exec Server.parting.rt) storedWorld)
      ((Server.parting.locally (.trusted 0) (.Append storedPath [4, 5]
        ⟨false, none⟩)).run.run (DbCall.exec Server.parting.rt) storedWorld) ∧
    EndAlike
      ((Server.parting.remotely .sample (.trusted 0) (.Mkdir (.named [['d'], ['e']])
        ⟨true, false, none⟩)).run.run (DbCall.exec Server.parting.rt) storedWorld)
      ((Server.parting.locally (.trusted 0) (.Mkdir (.named [['d'], ['e']])
        ⟨true, false, none⟩)).run.run (DbCall.exec Server.parting.rt) storedWorld) := by
  obtain ⟨raw, hfound, _⟩ := storedWorld_file
  constructor
  · refine (Server.update_agrees_iff Server.parting_knows (by decide) (by decide)
      storedWorld_reachable (.Append [4, 5] ⟨false, none⟩) (fun _ h => by cases h)
      (fun _ h => by cases h)).mpr ?_
    rintro ⟨_, _, habsent, _⟩
    rw [show resolve.resolve storedWorld.db 0 storedPath = none from habsent] at hfound
    cases hfound
  · refine (Server.update_agrees_iff Server.parting_knows (by decide) (by decide)
      storedWorld_reachable (.Mkdir ⟨true, false, none⟩) (fun _ h => by cases h) ?_).mpr id
    rintro object h
    cases h
    exact Server.parting_carries

/-- Bytes for a file `/g` that is not there and may not be created. -/
theorem uncreated_ends_otherwise :
    Reachable Runtime.counting storedWorld ∧ Server.sample.Knows .sample (.trusted 0) ∧
    VirtualPath.named [['g']] ≠ .root ∧ Plain (VirtualPath.named [['g']]).as_str ∧
    ¬ EndAlike
      ((Server.sample.remotely .sample (.trusted 0) (.WriteAt (.named [['g']]) 0 [1]
        ⟨false, none⟩)).run.run (DbCall.exec Server.sample.rt) storedWorld)
      ((Server.sample.locally (.trusted 0) (.WriteAt (.named [['g']]) 0 [1]
        ⟨false, none⟩)).run.run (DbCall.exec Server.sample.rt) storedWorld) := by
  refine ⟨storedWorld_reachable, Server.sample_knows, by decide, by decide, fun halike => ?_⟩
  rw [Server.told_run Server.sample_knows (by decide) (by decide) (.WriteAt 0 [1] ⟨false, none⟩)
    ⟨Nat.zero_le _, fun _ h => by cases h⟩ (fun _ h => by cases h)] at halike
  have hlacks : storedWorld.db.Lacks (.trusted 0) (.named [['g']]) 1 := by
    have habsent : (resolve.resolve storedWorld.db 0 (.named [['g']])).isNone = true := by
      decide +kernel
    have hroot : (resolve.resolve storedWorld.db 0 .root).isSome = true := by decide +kernel
    have hrow : (storedWorld.db.workspace? 0).isSome = true := by decide +kernel
    obtain ⟨parent, hparent⟩ := Option.isSome_iff_exists.mp hroot
    obtain ⟨row, hrow⟩ := Option.isSome_iff_exists.mp hrow
    exact ⟨rfl, Option.isNone_iff_eq_none.mp habsent, row, hrow, .inr ⟨.root, parent, by decide,
      hparent⟩⟩
  have hlocally := @Server.write_at_locally Server.sample (.trusted 0) storedWorld
    (.named [['g']]) storedWorld_reachable 0 [1] none
  exact hlocally.mp halike hlacks

end fslite
