import Fslite.Command.Routing
import Fslite.Server.Handlers
import Fslite.Sqlite.Run.Request

namespace fslite

open Url (Plain)
open routes

/-- A server, with the libraries it shares with its clients; the network cuts a
body into pieces. -/
structure Server where
  lib : http.Libraries
  state : AppState
  rt : Runtime
  views : Views
  pieces : Bytes → List Bytes

namespace Server

/-- What a request is answered with. -/
def answer (server : Server) (request : http.Request) : Prog DbCall.Res http.Response :=
  app server.lib server.state server.rt server.views request (server.pieces request.body)

/-- A command that a client sends to the server. -/
def remotely (server : Server) (self : RemoteExecutor) (ctx : RequestContext) (command : Command) :
    Task CommandOutput :=
  self.execute server.lib server.answer ctx command

/-- The same command in the process of the filesystem. -/
def locally (server : Server) (ctx : RequestContext) (command : Command) : Task CommandOutput :=
  LocalExecutor.execute server.rt server.views ctx command

/-- The server acts for a client with the given context: it knows the client's token,
and bodies arrive whole. -/
structure Knows (server : Server) (client : RemoteExecutor) (ctx : RequestContext) : Prop where
  standard : server.lib.Standard ctx.workspace_id
  grants : server.state.Grants client.token ctx
  whole : ∀ body, (server.pieces body).flatten = body

end Server

/-- A path below the root whose URLs are its own. -/
structure VirtualPath.Unambiguous (p : VirtualPath) : Prop where
  below_root : p ≠ .root
  plain : Plain p.as_str
  not_shadowed : p.ends_in LINK_TARGET_NAME = false

/-- Two executions end alike: with the same output, or with errors of the same code. -/
def Agrees (a b : FsResult CommandOutput) : Prop :=
  match a, b with
  | .ok x, .ok y => x = y
  | .error e, .error f => e.code = f.code
  | _, _ => False

section run

variable {rt : Runtime} {w w' : World} {A : Type}

theorem Api.run_fs {method : Task A} : (Api.fs method).run.run (DbCall.exec rt) w =
    ((method.run.run (DbCall.exec rt) w).1.mapError .Domain,
    (method.run.run (DbCall.exec rt) w).2) := Failing.run_adapt

theorem Api.run_fs_ok {method : Task A} {a : A}
    (h : method.run.run (DbCall.exec rt) w = (.ok a, w')) :
    (Api.fs method).run.run (DbCall.exec rt) w = (.ok a, w') := by
  rw [Api.run_fs, h]
  rfl

theorem Api.run_fs_error {method : Task A} {err : FsError}
    (h : method.run.run (DbCall.exec rt) w = (.error err, w')) :
    (Api.fs method).run.run (DbCall.exec rt) w = (.error (.Domain err), w') := by
  rw [Api.run_fs, h]
  rfl

theorem Api.respond_ok {handler : Api http.Response} {response : http.Response}
    (h : handler.run.run (DbCall.exec rt) w = (.ok response, w')) :
    handler.respond.run (DbCall.exec rt) w = (response, w') := by
  unfold Api.respond
  rw [Prog.run_bind, h]
  rfl

theorem Api.respond_error {handler : Api http.Response} {err : ApiError}
    (h : handler.run.run (DbCall.exec rt) w = (.error err, w')) :
    handler.respond.run (DbCall.exec rt) w = (err.into_response, w') := by
  unfold Api.respond
  rw [Prog.run_bind, h]
  rfl

end run

/-- A domain error comes back to the client as it was. -/
theorem RemoteExecutor.error_from_domain (err : FsError) :
    RemoteExecutor.error_from_response (ApiError.Domain err).into_response = err := by
  simp only [error_from_response, ApiError.into_response, code_from_str_code_str]
  rfl

namespace Server

variable {server : Server} {self : RemoteExecutor} {ctx : RequestContext} {w w' : World}

theorem sound_append {a b : Text} (ha : Url.Sound a) (hb : Url.Sound b) (hne : b ≠ []) :
    Url.Sound (a ++ b) where
  ends := by
    rw [List.getLast?_append_of_ne_nil _ hne]
    exact hb.ends
  free := fun c hc => (List.mem_append.mp hc).elim (ha.free c) (hb.free c)

/-- The query of the request of a command on a plain path is what the client has added. -/
theorem params_eq {ws : WorkspaceId} (hlib : server.lib.Standard ws) {command : Command}
    (hp : command.path ≠ .root)
    (hplain : Plain command.path.as_str) (hending : routes.Command.ending command = []) :
    (self.request server.lib ctx command).params server.lib =
    RemoteExecutor.Command.query command := by
  obtain ⟨rest, hrest, _⟩ := VirtualPath.as_str_eq hp
  have hurl := @request_url server.lib self ctx command
  have hsound : Url.Sound (self.request server.lib ctx command).url := by
    rw [hurl, hending, List.append_nil]
    exact sound_append (front_sound _) hplain.toSound (by rw [hrest]; exact List.cons_ne_nil _ _)
  unfold http.Request.params
  rw [hlib.query, Url.query_of_sound hsound]
  rfl

/-- The answer to a command on a plain path is that of its handler. -/
theorem answer_eq {ws : WorkspaceId} (hlib : server.lib.Standard ws) (command : Command)
    (hp : command.path ≠ .root)
    (hplain : Plain command.path.as_str) (hending : routes.Command.ending command = [])
    {handler : Handler} (harrives : locate server.lib server.state
    (self.request server.lib ctx command) = .ok ⟨ctx, handler, command.path⟩) :
    server.answer (self.request server.lib ctx command) =
      (handle server.lib server.rt server.views ⟨ctx, handler, command.path⟩
      (RemoteExecutor.Command.query command) (RemoteExecutor.Command.range command)
      (server.pieces (RemoteExecutor.Command.body server.lib command))).respond := by
  unfold answer app
  rw [harrives]
  simp only [params_eq hlib hp hplain hending]
  rfl

theorem sent_ok {request : http.Request} {handler : Api http.Response}
    (hanswer : server.answer request = handler.respond) {response : http.Response}
    (h : handler.run.run (DbCall.exec server.rt) w = (.ok response, w')) :
    (ExceptT.lift (server.answer request) : Task http.Response).run.run
    (DbCall.exec server.rt) w = (.ok response, w') := by
  rw [hanswer, Failing.run_lift, Api.respond_ok h]

theorem sent_error {request : http.Request} {handler : Api http.Response}
    (hanswer : server.answer request = handler.respond) {err : ApiError}
    (h : handler.run.run (DbCall.exec server.rt) w = (.error err, w')) :
    (ExceptT.lift (server.answer request) : Task http.Response).run.run
    (DbCall.exec server.rt) w = (.ok err.into_response, w') := by
  rw [hanswer, Failing.run_lift, Api.respond_error h]

/-- A command whose handler makes one call and answers with its node does what the call does. -/
theorem send_node_run {command : Command} {method : Task Node}
    (hanswer : server.answer (self.request server.lib ctx command) =
      (do let node ← Api.fs method; return node_response node : Api http.Response).respond) :
    (self.send_node server.lib server.answer ctx command).run.run (DbCall.exec server.rt) w =
      method.run.run (DbCall.exec server.rt) w := by
  obtain ⟨result, w', hmethod⟩ : ∃ result w',
    method.run.run (DbCall.exec server.rt) w = (result, w') := ⟨_, _, rfl⟩
  unfold RemoteExecutor.send_node RemoteExecutor.send_checked
  rw [hmethod]
  cases result with
  | ok node =>
    have hanswered : (do
        let node ← Api.fs method
        return node_response node : Api http.Response).run.run (DbCall.exec server.rt) w =
        (.ok (node_response node), w') := Failing.run_bind_ok (Api.run_fs_ok hmethod)
    rw [Failing.run_bind_ok (Failing.run_bind_ok (sent_ok hanswer hanswered))]
    rfl
  | error err =>
    have hrefused := sent_error hanswer (Failing.run_bind_error (Api.run_fs_error hmethod))
    refine Failing.run_bind_error ((Failing.run_bind_ok hrefused).trans ?_)
    rw [ApiError.into_response_failure, if_neg Bool.false_ne_true, RemoteExecutor.error_from_domain]
    rfl

/-- A stat of an unambiguous path tells a client what it tells the filesystem's process. -/
theorem stat_remotely (hknows : server.Knows self ctx) {p : VirtualPath} (hp : p.Unambiguous)
    (follow_symlinks : Bool) :
    (self.stat server.lib server.answer ctx p follow_symlinks).run.run (DbCall.exec server.rt) w =
      (SqliteFileSystem.stat ctx p follow_symlinks).run.run (DbCall.exec server.rt) w := by
  obtain ⟨rest, hrest, _⟩ := VirtualPath.as_str_eq hp.below_root
  have harrives : locate server.lib server.state
      (self.request server.lib ctx (.Stat p follow_symlinks)) = .ok ⟨ctx, .stat_inner, p⟩ := by
    refine locate_path (.Stat p follow_symlinks) hknows.standard hknows.grants hp.below_root hp.plain rfl hrest rfl ?_
    rw [stat_dispatch hrest hp.below_root hp.not_shadowed]
  refine send_node_run ((answer_eq hknows.standard
    (.Stat p follow_symlinks) hp.below_root hp.plain rfl harrives).trans (congrArg Api.respond ?_))
  have hquery : query_bool [("follow_symlinks".toList,
      bool_text follow_symlinks)] "follow_symlinks".toList true = .ok follow_symlinks := by
    cases follow_symlinks <;> decide
  show stat_inner ctx p [("follow_symlinks".toList, bool_text follow_symlinks)] = _
  rw [stat_inner, hquery]
  rfl

/-- A server whose network leaves a body whole. -/
def sample : Server where
  lib := .sample
  state := .sample
  rt := Runtime.counting
  views := ⟨fun _ _ _ => throw (FsError.internal_storage_failure []), fun _ _ _ =>
    throw (FsError.internal_storage_failure []),
    fun _ _ _ _ => throw (FsError.internal_storage_failure []), fun _ _ =>
      throw (FsError.internal_storage_failure [])⟩
  pieces := fun body => [body]

theorem sample_knows : sample.Knows .sample (.trusted 0) where
  standard := http.Libraries.sample_standard
  grants := AppState.sample_grants
  whole := fun body => List.append_nil body

end Server

end fslite
