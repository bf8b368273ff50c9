import Fslite.Sqlite.Run.Fault

namespace fslite

open mutate

variable {rt : Runtime} {ctx : RequestContext} {w : World}

theorem Reachable.performed (h : Reachable rt w) {operation : BatchOperation}
    {result : FsResult BatchResult} {w' : World}
    (hrun : (SqliteFileSystem.perform rt ctx operation).run.run (DbCall.exec rt) w = (result, w')) :
    Reachable rt w' := by
  have hserve := h.serve ctx (.Perform operation)
  have hmap : ((Request.Perform operation).serve rt ctx).run.run (DbCall.exec rt) w = _ :=
    Task.run_map
  rwa [hmap, hrun] at hserve

end fslite
