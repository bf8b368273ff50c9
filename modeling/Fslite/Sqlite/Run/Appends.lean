import Fslite.Sqlite.Run.Lengths
import Fslite.Sqlite.Run.Stream

namespace fslite

open content

/-- The final content of a file to which two sources have been appended. -/
def Db.StoresBoth (db : Db) (ws : WorkspaceId) (path : VirtualPath) 
    (old a b : Bytes) : Prop :=
  (∃ raw, db.Stores ws path (old ++ a ++ b) raw) ∨ ∃ raw, db.Stores ws path (old ++ b ++ a) raw

/-- Two appends to a file, one after the other. -/
theorem Reachable.appends_keep {rt : Runtime} {w w' w'' : World} (h : Reachable rt w)
    {ctx ctx' : RequestContext} (hws : ctx'.workspace_id = ctx.workspace_id) {path : VirtualPath}
    {old : Bytes} {raw : RawNode} (hold : w.db.Stores ctx.workspace_id path old raw)
    {a b : List Bytes} {options options' : WriteOptions} {reply reply' : Reply}
    (hfirst : (Request.Append path (a.map .ok) options).alone rt ctx w = (.ok reply, w'))
    (hsecond : (Request.Append path (b.map .ok) options').alone rt ctx' w' = (.ok reply', w'')) :
    ∃ raw', w''.db.Stores ctx.workspace_id path (old ++ a.flatten ++ b.flatten) raw' := by
  have hreachable := h.serve ctx (Request.Append path (a.map .ok) options)
  have hstate : ((Request.Append path (a.map .ok) options).alone rt ctx w).2 = w' :=
    congrArg Prod.snd hfirst
  obtain ⟨raw', hbetween⟩ := h.append_stores hold hfirst
  rw [← hws] at hbetween ⊢
  exact (hstate ▸ hreachable : Reachable rt w').append_stores hbetween hsecond

/-- What is known of the file while both appends may be under way. -/
def Watch.appends (rt : Runtime) (ws : WorkspaceId) (path : VirtualPath) (w : World)
    (raw : RawNode) (limit : Nat) : Watch where
  rt := rt
  ws := ws
  path := path
  limit := limit
  tick := w.tick
  own g := raw.content_generation_id = some g ∨ ∃ k, w.tick ≤ k ∧ rt.newId k = g
  fresh k hk := Or.inr ⟨k, hk, rfl⟩

theorem Watch.appends_within {rt : Runtime} {ws : WorkspaceId} {path : VirtualPath} {w : World}
    {old : Bytes} {raw : RawNode} {limit : Nat} (h : Reachable rt w)
    (hold : w.db.Stores ws path old raw) (hlimit : old.length ≤ limit) :
    (Watch.appends rt ws path w raw limit).Within w where
  later := le_refl _
  file raw' hfound := by
    obtain rfl := Option.some.inj (hold.found.symm.trans hfound)
    exact ⟨hold.length ▸ hlimit, fun g hg => Or.inl hg⟩
  chunks k c hc hown := by
    obtain hg | ⟨tick, htick, hid⟩ := hown
    · obtain ⟨g, hg', hlaid⟩ := hold.laid
      rw [hg', Option.some.injEq] at hg
      have hpiece := hlaid k.2
      rw [hg, show (k.1, k.2) = k from rfl, hc, Option.map_some] at hpiece
      rw [(piece?_eq_some.mp hpiece.symm).2, piece, List.length_take]
      exact Nat.min_le_left _ _
    · -- no generation of that name has been created yet
      obtain ⟨row, hrow⟩ := h.sound.wf.contents.chunk c (Table.mem_of_find? hc)
      rw [show c.generation_id = k.1 from congrArg Prod.fst (Table.key_of_find? hc)] at hrow
      obtain ⟨earlier, _, hlt, hid'⟩ := h.sound.issued.generation _ row hrow
      have := rt.newId_injective (hid'.trans hid.symm)
      omega

/-- After its first call an append writes at the end of the file that it has found. -/
theorem Request.append_begins {rt : Runtime} {ctx : RequestContext} {path : VirtualPath}
    {source : WriteSource} {options : WriteOptions} {raw : RawNode} {live : World → Prop}
    {w : World} {y : Prog DbCall.Res (FsResult Reply) × World}
    (hfound : resolve.resolve w.db ctx.workspace_id path = some raw) (hkind : raw.kind = .File)
    (h : Prog.Goes (DbCall.exec rt) live
      (((Request.Append path source options).serve rt ctx).run, w) y) :
    y = ((Reply.Node <$> content.write_at_impl ctx.workspace_id path raw.size source options.create
      options.expected_revision (actor_json rt ctx) true : Task Reply).run, w) := by
  have hserve : ((Request.Append path source options).serve rt ctx) = Reply.Node <$> (do
      require_capability ctx .Write path.as_str
      content.append ctx.workspace_id path source options (actor_json rt ctx) : Task Node) := rfl
  rw [hserve] at h
  unfold require_capability at h
  by_cases hcapability : ctx.has_capability .Write = true
  · rw [if_pos hcapability] at h
    have hresolve : DbCall.exec rt (.resolve ctx.workspace_id path) w = (.ok (some raw), w) := by
      rw [← hfound]
      rfl
    generalize hx : (ExceptT.run (Reply.Node <$> _ : Task Reply), w) = x at h
    cases h with
    | call o next s hlive =>
      rw [Prod.mk.injEq] at hx
      obtain ⟨hprog, rfl⟩ := hx
      cases hprog
      rw [hresolve]
      simp only [Prog.bind, ExceptT.bindCont, hkind, if_true]
      rfl
  · rw [if_neg hcapability] at h
    cases h

theorem nodes_of_stages {w w' : World}
    (h : Relation.ReflTransGen (fun w w' : World => w'.db.nodes = w.db.nodes) w w') :
    w'.db.nodes = w.db.nodes := by
  induction h with
  | refl => rfl
  | tail _ hsame ih => exact hsame.trans ih

/-- Where the second one of two appends begins while the first one is under way, neither of
them ever lengthens the file by the bytes of both. -/
theorem Reached.overlapping_short {rt : Runtime} {c d : System}
    (h : Reached rt (fun _ _ _ => True) c) {ctx ctx' : RequestContext}
    (hws : ctx'.workspace_id = ctx.workspace_id) {path : VirtualPath} {old : Bytes}
    {raw : RawNode} (hold : c.state.db.Stores ctx.workspace_id path old raw)
    {a b : List Bytes} {options options' : WriteOptions} {i j : Nat} (hij : i ≠ j)
    (hoverlaps : Overlaps (DbCall.exec rt) (Served rt) (Reachable rt) i j
      ((Request.Append path (a.map .ok) options).serve rt ctx).run
      ((Request.Append path (b.map .ok) options').serve rt ctx').run c d) :
    ∀ raw', resolve.resolve d.state.db ctx.workspace_id path = some raw' →
      raw'.size ≤ old.length + max a.flatten.length b.flatten.length := by
  let ω := Watch.appends rt ctx.workspace_id path c.state raw
    (old.length + max a.flatten.length b.flatten.length)
  have hwithin : ω.Within c.state :=
    Watch.appends_within ⟨c, h, rfl⟩ hold (Nat.le_add_right _ _)
  have hcommits : ∀ (ctx : RequestContext) (chunks : List Bytes) (options : WriteOptions),
      ctx.workspace_id = ω.ws → chunks.flatten.length ≤ max a.flatten.length b.flatten.length →
      ω.Commits (Reply.Node <$> content.write_at_impl ctx.workspace_id path raw.size
        (chunks.map .ok) options.create options.expected_revision (actor_json rt ctx) true) := by
    intro ctx chunks options hws hle
    rw [hws]
    refine Failing.Commits.map (Watch.write_at_impl (ω := ω) ?_)
    rw [source_bytes_ok, ← hold.length]
    exact Nat.add_le_add_left hle _
  obtain ⟨e, p', q', t, hfirst, hopen, hsecond, hp', hq', hbefore, hrest⟩ := hoverlaps
  obtain ⟨y, hbegins, hgoes⟩ := Relation.TransGen.head'_iff.mp hfirst
  rw [Request.append_begins hold.found hold.kind hbegins] at hgoes
  obtain ⟨ht, ⟨_, hend⟩ | ⟨hsame, hpcommits⟩⟩ :=
    Prog.Commits.goes (hcommits ctx a options rfl (Nat.le_max_left _ _)) hwithin hgoes
  · exact absurd hend (hopen _)
  · have hnodes : t.db.nodes = c.state.db.nodes := nodes_of_stages hsame
    have hfound : resolve.resolve t.db ctx'.workspace_id path = some raw := by
      rw [hws, resolve.resolve_congr hnodes]
      exact hold.found
    have hqbegins := Request.append_begins hfound hold.kind hsecond
    rw [Prod.mk.injEq] at hqbegins
    obtain ⟨rfl, hstate⟩ := hqbegins
    rw [← hstate] at ht
    have hlive : ∀ x, Steps (DbCall.exec rt) (Served rt) (Apart (DbCall.exec rt) i j) e x →
        Reachable rt x.state := fun x hx =>
      ⟨x, Relation.ReflTransGen.trans h (Steps.mono (Relation.ReflTransGen.trans hbefore hx)
        (fun _ hp => hp) (fun _ _ _ _ => trivial)), rfl⟩
    have hd : ω.Within d.state := hrest.both_keep hij hlive hp' hq' hpcommits
      (hcommits ctx' b options' hws (Nat.le_max_right _ _)) ht
    exact fun raw' hraw' => (hd.file raw' hraw').1

/-- Two appends to one file that is stored whole, both of which succeed while nothing else
changes: where they take turns, the file ends up with its old bytes and those of both, in the
order in which they came; where both have bytes to append, only then. -/
theorem Reached.appends_kept_iff {rt : Runtime} {c d : System}
    (h : Reached rt (fun _ _ _ => True) c) {ctx ctx' : RequestContext}
    (hws : ctx'.workspace_id = ctx.workspace_id) {path : VirtualPath} {old : Bytes}
    {raw : RawNode} (hold : c.state.db.Stores ctx.workspace_id path old raw)
    {a b : List Bytes} {options options' : WriteOptions} {reply reply' : Reply}
    {p q : Prog DbCall.Res (FsResult Reply)}
    (hp : p = ((Request.Append path (a.map .ok) options).serve rt ctx).run)
    (hq : q = ((Request.Append path (b.map .ok) options').serve rt ctx').run)
    (hrun : Steps (DbCall.exec rt) (Served rt)
      (Apart (DbCall.exec rt) c.procs.length (c.procs.length + 1)) ⟨c.state, c.procs ++ [p, q]⟩ d)
    (hfirst : d.procs[c.procs.length]? = some (.ret (.ok reply)))
    (hsecond : d.procs[c.procs.length + 1]? = some (.ret (.ok reply'))) :
    (Steps (DbCall.exec rt) (Served rt)
      (TakesTurn (DbCall.exec rt) c.procs.length (c.procs.length + 1) p q)
      ⟨c.state, c.procs ++ [p, q]⟩ d →
        d.state.db.StoresBoth ctx.workspace_id path old a.flatten b.flatten) ∧
    (a.flatten ≠ [] → b.flatten ≠ [] →
      d.state.db.StoresBoth ctx.workspace_id path old a.flatten b.flatten →
        Steps (DbCall.exec rt) (Served rt)
          (TakesTurn (DbCall.exec rt) c.procs.length (c.procs.length + 1) p q)
          ⟨c.state, c.procs ++ [p, q]⟩ d) := by
  have hreachable : Reachable rt c.state := ⟨c, h, rfl⟩
  have hne : c.procs.length ≠ c.procs.length + 1 := Nat.ne_of_lt (Nat.lt_succ_self _)
  have hleft : (c.procs ++ [p, q])[c.procs.length]? = some p := by
    rw [List.getElem?_append_right (Nat.le_refl _), Nat.sub_self]
    rfl
  have hright : (c.procs ++ [p, q])[c.procs.length + 1]? = some q := by
    rw [List.getElem?_append_right (Nat.le_add_right _ _), Nat.add_sub_cancel_left]
    rfl
  have harrived : Reached rt (fun _ _ _ => True) ⟨c.state, c.procs ++ [p, q]⟩ := by
    refine Relation.ReflTransGen.trans h (Steps.arrive_all (fun r hr => ?_) _ _)
    obtain rfl | hr := List.mem_cons.mp hr
    · exact ⟨ctx, _, hp⟩
    · exact ⟨ctx', _, (List.mem_singleton.mp hr).trans hq⟩
  have hlive : ∀ e, Steps (DbCall.exec rt) (Served rt)
      (Apart (DbCall.exec rt) c.procs.length (c.procs.length + 1)) ⟨c.state, c.procs ++ [p, q]⟩ e →
      Reachable rt e.state := fun e he =>
    ⟨e, Relation.ReflTransGen.trans harrived
      (Steps.mono he (fun _ hp => hp) (fun _ _ _ _ => trivial)), rfl⟩
  subst hp hq
  constructor
  · intro hturns
    obtain ⟨t, hrunp, hrunq⟩ | ⟨t, hrunq, hrunp⟩ :=
      hturns.in_turn hne hleft hright hfirst hsecond
    · exact Or.inl (hreachable.appends_keep hws hold hrunp hrunq)
    · rw [← hws] at hold ⊢
      exact Or.inr (hreachable.appends_keep hws.symm hold hrunq hrunp)
  · intro ha hb hboth
    have hlong : ∃ raw', resolve.resolve d.state.db ctx.workspace_id path = some raw' ∧
        raw'.size = old.length + a.flatten.length + b.flatten.length := by
      obtain ⟨raw', hstores⟩ | ⟨raw', hstores⟩ := hboth
      · refine ⟨raw', hstores.found, hstores.length.symm.trans ?_⟩
        rw [List.length_append, List.length_append]
      · refine ⟨raw', hstores.found, hstores.length.symm.trans ?_⟩
        rw [List.length_append, List.length_append]
        omega
    obtain ⟨raw', hfound, hsize⟩ := hlong
    have hapos := List.length_pos_iff.mpr ha
    have hbpos := List.length_pos_iff.mpr hb
    obtain hturns | hoverlaps | hoverlaps :=
      hrun.turns_or_overlaps hne hleft hright hlive
    · exact hturns
    · have hshort := harrived.overlapping_short hws hold hne hoverlaps raw' hfound
      omega
    · rw [← hws] at hold hfound
      have hshort := harrived.overlapping_short hws.symm hold (Ne.symm hne) hoverlaps raw' hfound
      omega

/-- A workspace with a file `/f` of three bytes, and the requests that have made it. -/
def threeBytes : System :=
  ⟨(writeThree.alone Runtime.counting (.trusted 0) bareWorld).2,
    [.ret ((Request.CreateWorkspace {}).alone Runtime.counting (.trusted 0) ⟨Db.empty, 0⟩).1,
      .ret (writeThree.alone Runtime.counting (.trusted 0) bareWorld).1]⟩

theorem threeBytes_stored : Reached Runtime.counting (fun _ _ _ => True) threeBytes ∧
    ∃ raw, threeBytes.state.db.Stores 0 (.ofSegments [['f']] (by decide)) [1, 2, 3] raw := by
  have hcreate := Serves.at_once Runtime.counting (.trusted 0) (.CreateWorkspace {}) System.empty
  have hcreated := hcreate.reached Relation.ReflTransGen.refl
  have hwrite := Serves.at_once Runtime.counting (.trusted 0) writeThree
    ⟨bareWorld, [.ret ((Request.CreateWorkspace {}).alone Runtime.counting (.trusted 0)
      ⟨Db.empty, 0⟩).1]⟩
  refine ⟨hwrite.reached hcreated, ?_⟩
  obtain ⟨reply, hreply⟩ : ∃ reply,
      (writeThree.alone Runtime.counting (.trusted 0) bareWorld).1 = .ok reply :=
    FsResult.exists_ok (by decide +kernel)
  exact hcreated.written (hreply ▸ hwrite)

/-- Appending the byte 4 to it, and appending the byte 5. -/
def appendFour : Prog DbCall.Res (FsResult Reply) :=
  ((Request.Append (.ofSegments [['f']] (by decide)) (List.map .ok [[4]]) {}).serve
    Runtime.counting (.trusted 0)).run

def appendFive : Prog DbCall.Res (FsResult Reply) :=
  ((Request.Append (.ofSegments [['f']] (by decide)) (List.map .ok [[5]]) {}).serve
    Runtime.counting (.trusted 0)).run

/-- The file after both have been served, one after the other. -/
theorem appends_kept_two : ∃ (d : System) (reply reply' : Reply),
    d.procs[2]? = some (.ret (.ok reply)) ∧ d.procs[3]? = some (.ret (.ok reply')) ∧
    d.state.db.StoresBoth 0 (.ofSegments [['f']] (by decide)) [1, 2, 3] [4] [5] := by
  obtain ⟨hreached, raw, hold⟩ := threeBytes_stored
  let s := threeBytes.state
  let exec := DbCall.exec Runtime.counting
  let t := (appendFour.run exec s).2
  have hturns : Steps exec (Served Runtime.counting) (TakesTurn exec 2 3 appendFour appendFive)
      ⟨s, threeBytes.procs ++ [appendFour, appendFive]⟩ ⟨(appendFive.run exec t).2,
        ((threeBytes.procs ++ [appendFour, appendFive]).set 2 (.ret (appendFour.run exec s).1)).set
          3 (.ret (appendFive.run exec t).1)⟩ :=
    Relation.ReflTransGen.trans (Steps.take_turn (by decide) rfl (Or.inl rfl))
      (Steps.mono (Steps.take_turn (i := 3) (j := 2) (q := appendFour) (by decide) rfl
        (Or.inr ⟨_, rfl⟩)) (fun _ hp => hp) (fun _ _ _ hmay => hmay.symm))
  obtain ⟨reply, hfirst⟩ : ∃ reply, (appendFour.run exec s).1 = .ok reply :=
    FsResult.exists_ok (by decide +kernel)
  obtain ⟨reply', hsecond⟩ : ∃ reply, (appendFive.run exec t).1 = .ok reply :=
    FsResult.exists_ok (by decide +kernel)
  have hends : ((threeBytes.procs ++ [appendFour, appendFive]).set 2
      (.ret (appendFour.run exec s).1)).set 3 (.ret (appendFive.run exec t).1) =
      threeBytes.procs ++ [.ret (.ok reply), .ret (.ok reply')] := by
    rw [hfirst, hsecond]
    rfl
  rw [hends] at hturns
  exact ⟨_, reply, reply', rfl, rfl, (hreached.appends_kept_iff rfl hold rfl rfl
    (Steps.mono hturns (fun _ hp => hp) (fun _ _ _ hmay => hmay.others)) rfl rfl).1 hturns⟩

/-- Both appends look up the length of the file before one of them commits. -/
def overlappedAppends : System := Config.schedule (DbCall.exec Runtime.counting)
  ⟨threeBytes.state, threeBytes.procs ++ [appendFour, appendFive]⟩
  [2, 3, 2, 2, 2, 2, 2, 2, 3, 3, 3, 3, 3, 3]

/-- Both return a node, and the byte of the first one is gone. -/
theorem overlapping_append_lost : ∃ (d : System) (raw : RawNode) (reply reply' : Reply),
    Reached Runtime.counting (fun _ _ _ => True) threeBytes ∧
    threeBytes.state.db.Stores 0 (.ofSegments [['f']] (by decide)) [1, 2, 3] raw ∧
    Steps (DbCall.exec Runtime.counting) (Served Runtime.counting)
      (Apart (DbCall.exec Runtime.counting) 2 3)
      ⟨threeBytes.state, threeBytes.procs ++ [appendFour, appendFive]⟩ d ∧
    d.procs[2]? = some (.ret (.ok reply)) ∧ d.procs[3]? = some (.ret (.ok reply')) ∧
    ¬ d.state.db.StoresBoth 0 (.ofSegments [['f']] (by decide)) [1, 2, 3] [4] [5] := by
  obtain ⟨hreached, raw, hold⟩ := threeBytes_stored
  obtain ⟨reply, hreply⟩ : ∃ reply, overlappedAppends.reply 2 = some reply :=
    Option.isSome_iff_exists.mp (by decide +kernel)
  obtain ⟨reply', hreply'⟩ : ∃ reply, overlappedAppends.reply 3 = some reply :=
    Option.isSome_iff_exists.mp (by decide +kernel)
  have hsize : (resolve.resolve overlappedAppends.state.db 0
      (.ofSegments [['f']] (by decide))).map RawNode.size = some 4 := by decide +kernel
  have hshort : ∀ bytes raw, overlappedAppends.state.db.Stores 0
      (.ofSegments [['f']] (by decide)) bytes raw → bytes.length = 4 := by
    intro bytes raw hstores
    rw [hstores.found, Option.map_some, Option.some.injEq] at hsize
    exact hstores.length.trans hsize
  refine ⟨overlappedAppends, raw, reply, reply', hreached, hold, Steps.schedule_apart (by decide),
    System.ended_of_reply hreply, System.ended_of_reply hreply', ?_⟩
  rintro (⟨raw', hstores⟩ | ⟨raw', hstores⟩)
  · exact absurd (hshort _ _ hstores) (by decide)
  · exact absurd (hshort _ _ hstores) (by decide)

end fslite
