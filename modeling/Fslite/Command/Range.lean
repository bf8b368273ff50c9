import Fslite.Command.Transport
import Fslite.Sqlite.Run.Addressing
import Fslite.Sqlite.Run.Lone

namespace fslite

open routes

theorem Revision.eq_of_get {a b : Revision} (h : a.get = b.get) : a = b := by
  cases a
  cases b
  cases h
  rfl

theorem not_mem_decimal {c : Char} (hc : c.isDigit = false) (n : Nat) : c ∉ decimal n := by
  intro hmem
  rw [isDigit_decimal c hmem] at hc
  cases hc

/-- What the server makes of the header of a ranged read. -/
theorem resolve_range_header {range : ByteRange} (hstart : range.start ≤ U64_MAX)
    (hend : range.end_ ≤ U64_MAX) (logical_size : Nat) :
    resolve_range (RemoteExecutor.range_header range) logical_size =
      if logical_size ≤ range.start then .error .Unsatisfiable
      else if range.end_ - 1 < range.start then .error .Malformed
      else .ok ⟨range.start, min (saturating_add (range.end_ - 1) 1) logical_size⟩ := by
  have hcomma : ',' ∉ decimal range.start ++ '-' :: decimal (range.end_ - 1) := by
    intro hmem
    obtain hmem | hmem := List.mem_append.mp hmem
    · exact not_mem_decimal rfl _ hmem
    · obtain hhyphen | hmem := List.mem_cons.mp hmem
      · exact absurd hhyphen (by decide)
      · exact not_mem_decimal rfl _ hmem
  unfold resolve_range RemoteExecutor.range_header
  rw [List.append_assoc, strip_prefix_append]
  simp only [hcomma, if_false, split_once_append (not_mem_decimal (c := '-') rfl range.start),
    decimal_ne_nil,
    parse_uint_decimal hstart, parse_uint_decimal (show range.end_ - 1 ≤ U64_MAX by omega)]

/-- The client reads back the bounds that the server has put into its header. -/
theorem parse_content_range {range : ByteRange} (hstart : range.start ≤ U64_MAX)
    (hend : range.end_ ≤ U64_MAX) (hpos : 0 < range.end_) (total : Nat) :
    RemoteExecutor.parse_content_range_bounds (content_range range total) =
      some (range.start, range.end_) := by
  have hslash : '/' ∉ decimal range.start ++ '-' :: decimal (range.end_ - 1) := by
    intro hmem
    obtain hmem | hmem := List.mem_append.mp hmem
    · exact not_mem_decimal rfl _ hmem
    · obtain hhyphen | hmem := List.mem_cons.mp hmem
      · exact absurd hhyphen (by decide)
      · exact not_mem_decimal rfl _ hmem
  have hlast : (range.end_ - 1 + 1) % (U64_MAX + 1) = range.end_ := by
    rw [Nat.sub_add_cancel hpos]
    exact Nat.mod_eq_of_lt (Nat.lt_succ_of_le hend)
  have htext : content_range range total =
      "bytes ".toList ++ ((decimal range.start ++ '-' :: decimal (range.end_ - 1)) ++ '/' ::
        decimal total) := by
    unfold content_range
    rw [List.append_assoc, List.append_assoc, List.cons_append]
  unfold RemoteExecutor.parse_content_range_bounds
  rw [htext, strip_prefix_append]
  simp only [Option.bind_eq_bind, Option.bind_some, split_once_append hslash,
    split_once_append (not_mem_decimal (c := '-') rfl range.start),
    parse_uint_decimal hstart, parse_uint_decimal (show range.end_ - 1 ≤ U64_MAX by omega), hlast]
  rfl

/-- A file that a path leads to, with its generation. -/
structure Db.FileAt (db : Db) (ws : WorkspaceId) (path : VirtualPath) (raw : RawNode)
    (g : GenerationId) : Prop where
  found : resolve.resolve db ws path = some raw
  kind : raw.kind = .File
  generation : raw.content_generation_id = some g
  revision : 0 < raw.revision

theorem WellFormed.file_at {db : Db} (hwf : WellFormed db) {ws : WorkspaceId} {path : VirtualPath}
    {raw : RawNode} (hfound : resolve.resolve db ws path = some raw) (hkind : raw.kind = .File) :
    ∃ g, db.FileAt ws path raw g := by
  obtain ⟨n, rfl, hn⟩ := resolve.resolve_live hfound
  obtain ⟨g, hg⟩ := Option.ne_none_iff_exists'.mp (hwf.contents.file n hn.mem hkind)
  exact ⟨g, hfound, hkind, hg, hwf.nodes.revision n hn.mem⟩

/-- A stat reports the file. -/
theorem Db.FileAt.stat {rt : Runtime} {ctx : RequestContext} {w : World} {path : VirtualPath}
    {raw : RawNode} {g : GenerationId} (h : w.db.FileAt ctx.workspace_id path raw g)
    (hread : ctx.has_capability .Read = true) :
    ∃ node, (SqliteFileSystem.stat ctx path true).run.run (DbCall.exec rt) w = (.ok node, w) ∧
    node.logical_size = raw.size ∧
      node.revision = ⟨raw.revision, h.revision⟩ := by
  obtain ⟨node, hnode, _, hsize, hget⟩ := RawNode.into_node_figures h.revision
  have hfollowed : resolve.resolve_following w.db ctx.workspace_id path true = .Found raw :=
    resolve.resolve_following_of_resolve h.found
      (fun _ hlink => by rw [h.kind] at hlink; cases hlink)
  exact ⟨node, stat_run hread hfollowed hnode, hsize, Revision.eq_of_get hget⟩

namespace Server

variable {server : Server} {self : RemoteExecutor} {ctx : RequestContext} {w : World}
  {path : VirtualPath} {raw : RawNode} {g : GenerationId} {range : ByteRange}

/-- A ranged read in the filesystem's own process. -/
theorem read_locally (hfile : w.db.FileAt ctx.workspace_id path raw g)
    (hread : ctx.has_capability .Read = true) (range : ByteRange) (follow_symlinks : Bool) :
    (server.locally ctx (.Read path ⟨some range, follow_symlinks⟩)).run.run
    (DbCall.exec server.rt) w =
      (if raw.size < range.start then .error (FsError.invalid_range path.as_str)
        else .ok (.Content raw.size ⟨raw.revision, hfile.revision⟩
          ⟨range.start, min range.end_ raw.size⟩
          (w.db.fetched g ⟨range.start, min range.end_ raw.size⟩)), w) := by
  have hrun := @content.read_run server.rt ctx w path raw g hfile.found hfile.kind hfile.generation hfile.revision hread
    ⟨some range, follow_symlinks⟩ range rfl
  unfold locally LocalExecutor.execute
  by_cases hbeyond : raw.size < range.start
  · rw [if_pos hbeyond] at hrun ⊢
    exact Failing.run_bind_error hrun
  · rw [if_neg hbeyond] at hrun ⊢
    obtain ⟨file, chunks, hopen, hstream, hlength, hget, hrange, hbytes⟩ := hrun
    rw [Failing.run_bind_ok hopen, Failing.run_bind_ok Failing.run_lift, hstream,
      LocalExecutor.drain_ok, hbytes, hlength,
      hrange, show file.revision = ⟨raw.revision, hfile.revision⟩ from Revision.eq_of_get hget]
    rfl

/-- The end that the header of a range says: it names the last byte, so that a range
that ends at 0 reads as one that ends at 1. -/
def said_end (range : ByteRange) (size : Nat) : Nat := min (max range.end_ 1) size

theorem said_end_le (hend : range.end_ ≤ U64_MAX) (size : Nat) : said_end range size ≤ U64_MAX := by
  have hone : 1 ≤ U64_MAX := Nat.le_sub_of_add_le
    (Nat.pow_le_pow_right Nat.two_pos (show 1 ≤ 64 by omega))
  exact (Nat.min_le_left _ _).trans (Nat.max_le.mpr ⟨hend, hone⟩)

theorem said_end_eq (hend : range.end_ ≤ U64_MAX) (size : Nat) :
    min (saturating_add (range.end_ - 1) 1) size = said_end range size := by
  have hone : 1 ≤ U64_MAX := Nat.le_sub_of_add_le
    (Nat.pow_le_pow_right Nat.two_pos (show 1 ≤ 64 by omega))
  unfold said_end saturating_add
  generalize U64_MAX = limit at hone hend ⊢
  omega

/-- What the content route makes of the header of a ranged read of a file. -/
theorem content_run (hfile : w.db.FileAt ctx.workspace_id path raw g)
    (hread : ctx.has_capability .Read = true) (hstart : range.start ≤ U64_MAX)
    (hend : range.end_ ≤ U64_MAX) :
    if raw.size ≤ range.start then
      ∃ response : http.Response, response.status = http.RANGE_NOT_SATISFIABLE ∧
        (routes.read ctx path (some (RemoteExecutor.range_header range))).run.run
        (DbCall.exec server.rt) w = (.ok response, w)
    else if range.end_ - 1 < range.start then
      ∃ message, (routes.read ctx path (some (RemoteExecutor.range_header range))).run.run
        (DbCall.exec server.rt) w =
        (.error (.MalformedBody message), w)
    else
      ∃ (response : http.Response) (chunks : List Bytes), response.status = http.PARTIAL_CONTENT ∧
        response.content_range =
          some (content_range ⟨range.start, said_end range raw.size⟩ raw.size) ∧
        response.payload = .stream (chunks.map .ok) ∧
        chunks.flatten = w.db.fetched g ⟨range.start, said_end range raw.size⟩ ∧
        (routes.read ctx path (some (RemoteExecutor.range_header range))).run.run
        (DbCall.exec server.rt) w = (.ok response, w) := by
  obtain ⟨node, hnode, hsize, _⟩ := @Db.FileAt.stat server.rt ctx w path raw g hfile hread
  unfold routes.read
  simp only []
  rw [Failing.run_bind_ok (Api.run_fs_ok hnode), resolve_range_header hstart hend, hsize]
  by_cases hbeyond : raw.size ≤ range.start
  · simp only [if_pos hbeyond]
    exact ⟨_, rfl, rfl⟩
  · by_cases hreversed : range.end_ - 1 < range.start
    · simp only [if_neg hbeyond, if_pos hreversed]
      exact ⟨_, rfl⟩
    · simp only [if_neg hbeyond, if_neg hreversed, said_end_eq hend]
      obtain ⟨part, hpart⟩ : ∃ part : ByteRange, part = ⟨range.start, said_end range raw.size⟩ :=
        ⟨_, rfl⟩
      have hclipped : (⟨part.start, min part.end_ raw.size⟩ : ByteRange) = part := by
        rw [hpart, said_end, min_assoc, min_self]
      have hrun := @content.read_run server.rt ctx w path raw g hfile.found hfile.kind
        hfile.generation hfile.revision hread
        ⟨some part, true⟩ part rfl
      rw [if_neg (by rw [hpart]; exact fun hlt => hbeyond (Nat.le_of_lt hlt)), hclipped] at hrun
      obtain ⟨file, chunks, hopen, hstream, hlength, _, hrange, hbytes⟩ := hrun
      refine ⟨{
        status := http.PARTIAL_CONTENT
        content_range := some (content_range part raw.size)
        payload := .stream (chunks.map .ok) }, chunks,
          rfl, by rw [hpart], rfl, by rw [hbytes, hpart], ?_⟩
      rw [← hpart]
      unfold read_range
      rw [Failing.run_bind_ok (Api.run_fs_ok hopen), Failing.run_bind_ok Failing.run_lift, hstream,
        hlength, hrange]
      rfl

/-- The body of a response that is streamed without an error. -/
theorem bytes_run {response : http.Response} {chunks : List Bytes}
    (h : response.payload = .stream (chunks.map .ok)) :
    (RemoteExecutor.bytes server.lib response).run.run
    (DbCall.exec server.rt) w = (.ok chunks.flatten, w) := by
  unfold RemoteExecutor.bytes
  simp only [h, LocalExecutor.drain_ok]
  rfl

/-- A ranged read of a client. -/
theorem read_remotely (hknows : server.Knows self ctx) (hpath : path.Unambiguous)
    (hfile : w.db.FileAt ctx.workspace_id path raw g) (hread : ctx.has_capability .Read = true)
    (hstart : range.start ≤ U64_MAX) (hend : range.end_ ≤ U64_MAX) :
    ∃ result, (server.remotely self ctx (.Read path ⟨some range, true⟩)).run.run
      (DbCall.exec server.rt) w = (result, w) ∧
      if raw.size ≤ range.start then ∃ err, result = .error err ∧ err.code = .InvalidRange
      else if range.end_ - 1 < range.start then ∃ err, result = .error err ∧
      err.code = .InternalStorageFailure
      else result = .ok (.Content raw.size ⟨raw.revision, hfile.revision⟩
        ⟨range.start, said_end range raw.size⟩
        (w.db.fetched g ⟨range.start, said_end range raw.size⟩)) := by
  obtain ⟨rest, hrest, _⟩ := VirtualPath.as_str_eq hpath.below_root
  have harrives : locate server.lib server.state
    (self.request server.lib ctx (.Read path ⟨some range, true⟩)) =
      .ok ⟨ctx, .read, path⟩ :=
    locate_path (.Read path ⟨some range,
      true⟩) hknows.standard hknows.grants hpath.below_root hpath.plain rfl hrest rfl rfl
  have hanswer := answer_eq hknows.standard (.Read path
    ⟨some range, true⟩) hpath.below_root hpath.plain rfl harrives
  have hcontent := @content_run server ctx w path raw g range hfile hread hstart hend
  obtain ⟨node, hnode, hsize, hrevision⟩ := @Db.FileAt.stat server.rt ctx w path raw g hfile hread
  have hstat : (self.stat server.lib server.answer ctx path true).run.run
    (DbCall.exec server.rt) w = (.ok node, w) :=
    (stat_remotely hknows hpath true).trans hnode
  unfold remotely RemoteExecutor.execute RemoteExecutor.read
  simp only [not_true_eq_false, if_false]
  rw [Failing.run_bind_ok hstat]
  by_cases hbeyond : raw.size ≤ range.start
  · simp only [if_pos hbeyond] at hcontent ⊢
    obtain ⟨response, hstatus, hrun⟩ := hcontent
    rw [Failing.run_bind_ok (sent_ok hanswer hrun), if_pos hstatus]
    exact ⟨_, rfl, _, rfl, rfl⟩
  · by_cases hreversed : range.end_ - 1 < range.start
    · simp only [if_neg hbeyond, if_pos hreversed] at hcontent ⊢
      obtain ⟨message, hrun⟩ := hcontent
      rw [Failing.run_bind_ok (sent_error hanswer hrun)]
      exact ⟨_, rfl, _, rfl, rfl⟩
    · simp only [if_neg hbeyond, if_neg hreversed] at hcontent ⊢
      obtain ⟨response, chunks, hstatus, hrange, hpayload, hchunks, hrun⟩ := hcontent
      have hbounds : response.content_range.bind RemoteExecutor.parse_content_range_bounds =
          some (range.start, said_end range raw.size) := by
        rw [hrange]
        exact @parse_content_range ⟨range.start, said_end range raw.size⟩ hstart
          (said_end_le hend _)
          (by show 0 < min _ _; omega) _
      have hsuccess : ¬ ¬ response.is_success = true := by
        unfold http.Response.is_success
        rw [hstatus]
        decide
      refine ⟨_, ?_, rfl⟩
      rw [Failing.run_bind_ok (sent_ok hanswer hrun), if_neg (by rw [hstatus]; decide),
        if_neg hsuccess,
        Failing.run_bind_ok (bytes_run hpayload), hbounds, hchunks, hrevision, hsize]
      rfl

/-- A read that is not permitted, in both places. -/
theorem read_denied (hknows : server.Knows self ctx) (hpath : path.Unambiguous)
    (hread : ¬ ctx.has_capability .Read = true) (range : ByteRange) (follow_symlinks : Bool) :
    (server.locally ctx (.Read path ⟨some range, follow_symlinks⟩)).run.run
    (DbCall.exec server.rt) w =
      (.error (FsError.permission_denied path.as_str), w) ∧
    (server.remotely self ctx (.Read path ⟨some range, true⟩)).run.run (DbCall.exec server.rt) w =
      (.error (FsError.permission_denied path.as_str), w) := by
  refine ⟨Failing.run_bind_error (Task.run_denied hread), ?_⟩
  unfold remotely RemoteExecutor.execute RemoteExecutor.read
  simp only [not_true_eq_false, if_false]
  exact Failing.run_bind_error ((stat_remotely hknows hpath true).trans (Task.run_denied hread))

/-- A read of a client that must not follow links is refused before it is sent, as no
read of the filesystem's process is. -/
theorem unfollowed_disagrees (hfile : w.db.FileAt ctx.workspace_id path raw g) (range : ByteRange) :
    ¬ Agrees ((server.remotely self ctx (.Read path ⟨some range, false⟩)).run.run
      (DbCall.exec server.rt) w).1
      ((server.locally ctx (.Read path ⟨some range, false⟩)).run.run
      (DbCall.exec server.rt) w).1 := by
  obtain ⟨err, hremote, hcode⟩ : ∃ err : FsError,
      ((server.remotely self ctx (.Read path ⟨some range, false⟩)).run.run
        (DbCall.exec server.rt) w).1 = .error err ∧
        err.code = .InternalStorageFailure := ⟨_, rfl, rfl⟩
  rw [hremote]
  intro hagrees
  by_cases hread : ctx.has_capability .Read = true
  · rw [read_locally hfile hread] at hagrees
    by_cases hbeyond : raw.size < range.start
    · simp only [if_pos hbeyond] at hagrees
      cases show ErrorCode.InternalStorageFailure = .InvalidRange from hcode.symm.trans hagrees
    · simp only [if_neg hbeyond] at hagrees
      exact hagrees
  · have hlocal : (server.locally ctx (.Read path ⟨some range, false⟩)).run.run (DbCall.exec server.rt) w =
        (.error (FsError.permission_denied path.as_str), w) :=
          Failing.run_bind_error (Task.run_denied hread)
    rw [hlocal] at hagrees
    cases show ErrorCode.InternalStorageFailure = .PermissionDenied from hcode.symm.trans hagrees

/-- A ranged read that is permitted and follows links. -/
theorem permitted_read_agrees_iff (hknows : server.Knows self ctx) (hpath : path.Unambiguous)
    (hfile : w.db.FileAt ctx.workspace_id path raw g) (hread : ctx.has_capability .Read = true)
    (hstart : range.start ≤ U64_MAX) (hend : range.end_ ≤ U64_MAX) :
    Agrees ((server.remotely self ctx (.Read path ⟨some range, true⟩)).run.run
      (DbCall.exec server.rt) w).1
      ((server.locally ctx (.Read path ⟨some range, true⟩)).run.run (DbCall.exec server.rt) w).1 ↔
    raw.size < range.start ∨ range.start < raw.size ∧ range.start < range.end_ := by
  obtain ⟨result, hremote, hresult⟩ :=
    @read_remotely server self ctx w path raw g range hknows hpath hfile hread hstart hend
  rw [hremote, read_locally hfile hread]
  by_cases hbeyond : raw.size < range.start
  · obtain ⟨err, rfl, hcode⟩ := (if_pos (Nat.le_of_lt hbeyond)).mp hresult
    simp only [if_pos hbeyond]
    exact iff_of_true hcode (.inl hbeyond)
  · simp only [if_neg hbeyond]
    by_cases hend_of : raw.size ≤ range.start
    · obtain ⟨err, rfl, _⟩ := (if_pos hend_of).mp hresult
      exact iff_of_false id (fun h => by omega)
    · rw [if_neg hend_of] at hresult
      by_cases hproper : range.start < range.end_
      · have hsaid : said_end range raw.size = min range.end_ raw.size := by
          unfold said_end
          omega
        rw [if_neg (by omega), hsaid] at hresult
        rw [hresult]
        exact iff_of_true rfl (by omega)
      · refine iff_of_false (fun hagrees => ?_) (fun h => by omega)
        by_cases hreversed : range.end_ - 1 < range.start
        · obtain ⟨err, rfl, _⟩ := (if_pos hreversed).mp hresult
          exact hagrees
        · rw [if_neg hreversed] at hresult
          rw [hresult] at hagrees
          -- Only a range from 0 to 0 is left, and the client reads it as the first byte.
          have hends : said_end range raw.size = min range.end_ raw.size :=
            (ByteRange.mk.inj (CommandOutput.Content.inj hagrees).2.2.1).2
          unfold said_end at hends
          omega

/-- A ranged read of a client agrees with the one of the filesystem's process exactly
where it follows links, as a client's read must, and neither is permitted, or the range
starts behind the end of the file, or it starts inside the file and is not empty. -/
theorem ranged_read_agrees_iff (hknows : server.Knows self ctx) (hpath : path.Unambiguous)
    (hreach : Reachable server.rt w)
    (hfound : resolve.resolve w.db ctx.workspace_id path = some raw) (hkind : raw.kind = .File)
    (hstart : range.start ≤ U64_MAX) (hend : range.end_ ≤ U64_MAX) (follow_symlinks : Bool) :
    Agrees ((server.remotely self ctx (.Read path ⟨some range, follow_symlinks⟩)).run.run
      (DbCall.exec server.rt) w).1
      ((server.locally ctx (.Read path ⟨some range, follow_symlinks⟩)).run.run
      (DbCall.exec server.rt) w).1 ↔
    follow_symlinks = true ∧ (ctx.has_capability .Read = false ∨ raw.size < range.start ∨
      range.start < raw.size ∧ range.start < range.end_) := by
  obtain ⟨g, hfile⟩ := hreach.sound.wf.file_at hfound hkind
  cases follow_symlinks with
  | false => exact iff_of_false (unfollowed_disagrees hfile range) (fun h => Bool.false_ne_true h.1)
  | true =>
    by_cases hread : ctx.has_capability .Read = true
    · rw [permitted_read_agrees_iff hknows hpath hfile hread hstart hend]
      simp only [hread, Bool.true_eq_false, false_or, true_and]
    · obtain ⟨hlocal, hremote⟩ := @read_denied server self ctx w path hknows hpath hread range true
      rw [hlocal, hremote]
      exact iff_of_true rfl ⟨rfl, .inl (Bool.eq_false_of_not_eq_true hread)⟩

end Server

/-- The file `/f` with the bytes 1, 2, 3. -/
def storedRequests : List (RequestContext × Request) :=
  [(.trusted 0, .CreateWorkspace {}), (.trusted 0, writeThree)]

def storedWorld : World := serveAll Runtime.counting storedRequests ⟨Db.empty, 0⟩

def storedPath : VirtualPath := .named [['f']]

theorem storedPath_unambiguous : storedPath.Unambiguous := ⟨by decide, by decide, by decide⟩

theorem storedWorld_reachable : Reachable Runtime.counting storedWorld :=
  (Reachable.empty Runtime.counting).serveAll storedRequests

theorem storedWorld_file : ∃ raw, resolve.resolve storedWorld.db 0 storedPath = some raw ∧
    raw.kind = .File ∧ raw.size = 3 := by
  have hfigures : (resolve.resolve storedWorld.db 0 storedPath).map
      (fun raw => (raw.kind, raw.size)) = some (.File, 3) := by
    decide +kernel
  obtain ⟨raw, hfound, hraw⟩ := Option.map_eq_some_iff.mp hfigures
  exact ⟨raw, hfound, congrArg Prod.fst hraw, congrArg Prod.snd hraw⟩

/-- The empty range at the start of the file is nothing for its own process, and its first byte
for a client. -/
theorem empty_range_disagrees :
    Reachable Runtime.counting storedWorld ∧ Server.sample.Knows .sample (.trusted 0) ∧
    storedPath.Unambiguous ∧ (∃ raw, resolve.resolve storedWorld.db 0 storedPath = some raw ∧
      raw.kind = .File) ∧
    ¬ Agrees ((Server.sample.remotely .sample (.trusted 0)
      (.Read storedPath ⟨some ⟨0, 0⟩, true⟩)).run.run
        (DbCall.exec Server.sample.rt) storedWorld).1
      ((Server.sample.locally (.trusted 0) (.Read storedPath ⟨some ⟨0, 0⟩, true⟩)).run.run
        (DbCall.exec Server.sample.rt) storedWorld).1 := by
  obtain ⟨raw, hfound, hkind, _⟩ := storedWorld_file
  obtain ⟨g, hfile⟩ := storedWorld_reachable.sound.wf.file_at hfound hkind
  refine ⟨storedWorld_reachable, Server.sample_knows, storedPath_unambiguous, ⟨raw, hfound, hkind⟩,
    fun hagrees => ?_⟩
  have hproper := (@Server.permitted_read_agrees_iff Server.sample .sample
    (.trusted 0) storedWorld storedPath raw g ⟨0, 0⟩
    Server.sample_knows storedPath_unambiguous hfile rfl (Nat.zero_le _) (Nat.zero_le _)).mp hagrees
  exact hproper.elim (Nat.not_lt_zero _ ·) (fun h => Nat.not_lt_zero 0 h.2)

/-- The bytes from the second one on, of which the range names more than there are. -/
theorem part_read_agrees : Agrees
    ((Server.sample.remotely .sample (.trusted 0) (.Read storedPath ⟨some ⟨1, 9⟩, true⟩)).run.run
      (DbCall.exec Server.sample.rt) storedWorld).1
    ((Server.sample.locally (.trusted 0) (.Read storedPath ⟨some ⟨1, 9⟩, true⟩)).run.run
      (DbCall.exec Server.sample.rt) storedWorld).1 := by
  obtain ⟨raw, hfound, hkind, hsize⟩ := storedWorld_file
  have hsmall : ∀ n, n ≤ 9 → n ≤ U64_MAX := fun n hn => hn.trans (by unfold U64_MAX; omega)
  refine (@Server.ranged_read_agrees_iff Server.sample .sample
    (.trusted 0) storedWorld storedPath raw ⟨1, 9⟩ Server.sample_knows
    storedPath_unambiguous storedWorld_reachable hfound hkind (hsmall 1 (by omega))
      (hsmall 9 (by omega)) true).mpr
    ⟨rfl, .inr (.inr ⟨?_, by decide⟩)⟩
  rw [hsize]
  decide

end fslite
