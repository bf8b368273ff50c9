import Fslite.Paging
import Fslite.Sqlite.Run.Consumer
import Fslite.Sqlite.Run.Failure

namespace fslite

open change

/-- The page of the feed that a client gets which continues, as in the other
listings, by the cursor of its page request. -/
def continued_changes (rt : Runtime) (ctx : RequestContext) (limit : Nat) (w : World)
    (cursor : Option Text) (items : List Change) (next : Option Text) : Prop :=
  (Request.Changes none { cursor, limit }).alone rt ctx w = (.ok (.Changes ⟨items, next⟩), w)

/-- The items are the whole feed of the workspace, each change once and in the
order of the sequence. -/
def WholeFeed (rt : Runtime) (db : Db) (ws : WorkspaceId) (items : List Change) : Prop :=
  Delivers rt (db.feed ws) items ∧ items.map Change.sequence = List.range' 1 items.length

variable {rt : Runtime} {ctx : RequestContext} {limit : Nat} {w : World}

theorem Delivers.sequences {rows : List ChangeRow} {items : List Change}
    (h : Delivers rt rows items) :
    items.map Change.sequence = rows.map ChangeRow.sequence := by
  induction h with
  | nil => rfl
  | @cons row item rows items hitem _ ih =>
    rw [List.map_cons, List.map_cons, ih, (into_change_ok hitem).1, raw_change]

/-- A page has a cursor exactly when there are more rows. -/
theorem changes_page_more {ws : WorkspaceId} (hlimit : 0 < limit) {rows : List ChangeRow}
    {answer : Page Change} (h : changes_page rt ws limit
    ((rows.take (limit + 1)).map raw_change) = .ok answer) :
    answer.next_cursor = none ↔ rows.length ≤ limit := by
  have hmore : limit < ((rows.take (limit + 1)).map raw_change).length ↔ limit < rows.length := by
    rw [List.length_map, List.length_take]
    omega
  simp only [changes_page, hmore] at h
  cases hitems : (if limit < rows.length then ((rows.take (limit + 1)).map raw_change).take limit
      else (rows.take (limit + 1)).map raw_change).mapM (RawChange.into_change rt) with
  | error e =>
    rw [hitems] at h
    cases h
  | ok items =>
    rw [hitems] at h
    cases h
    by_cases hlong : limit < rows.length
    · simp only [hlong, if_true, Option.map_eq_none_iff, List.getLast?_eq_none_iff,
        List.take_eq_nil_iff, List.map_eq_nil_iff]
      refine iff_of_false ?_ (by omega)
      rintro (hzero | hzero | rfl)
      · omega
      · omega
      · simp at hlong
    · simp only [hlong, if_false, Option.map_none, true_iff]
      omega

/-- The cursor of the page request makes no difference: every page is the first one. -/
theorem continued_changes_first (hread : ctx.has_capability .Read = true)
    (hnumbered : Numbered w.db) (hreadable : ∀ c ∈ w.db.changes, c.Readable) (limit : Nat) :
    ∃ answer : Page Change,
      (∀ cursor, (Request.Changes none { cursor, limit }).alone rt ctx w =
      (.ok (.Changes answer), w)) ∧
      Delivers rt ((w.db.feed ctx.workspace_id).take (max limit 1)) answer.items ∧
      (answer.next_cursor = none ↔ (w.db.feed ctx.workspace_id).length ≤ max limit 1) := by
  have hrows : ∀ row ∈ w.db.feed ctx.workspace_id, row.Readable :=
    fun row hrow => hreadable row (List.mem_filter.mp hrow).1
  obtain ⟨answer, hanswer, hdelivers, _⟩ :=
    @changes_page_ok rt ctx.workspace_id (max limit 1) _ hrows
  refine ⟨answer, fun cursor => ?_, hdelivers, changes_page_more (by omega) hanswer⟩
  have hrun := @changes_run rt ctx w none 0 hread rfl hnumbered { cursor, limit }
  rw [List.drop_zero, hanswer] at hrun
  exact hrun

/-- Where the feed does not fit one page, no page is the last one. -/
theorem continued_changes_endless (hread : ctx.has_capability .Read = true)
    (hnumbered : Numbered w.db) (hreadable : ∀ c ∈ w.db.changes, c.Readable)
    (hlong : max limit 1 < (w.db.feed ctx.workspace_id).length)
    (pages : List (World × List Change)) :
    ¬ Paging.Finished (fun t cursor items next => t = w ∧
      continued_changes rt ctx limit t cursor items next) pages := by
  rintro ⟨_, rfl, hlast⟩
  obtain ⟨answer, hanswer, _, hnone⟩ :=
    @continued_changes_first rt _ _ hread hnumbered hreadable limit
  have heq := hlast.symm.trans (hanswer _)
  cases heq
  exact absurd (hnone.mp rfl) (by omega)

/-- Continued by the cursor of the page request, the pages end and are the whole
feed exactly when the feed fits one page. -/
theorem Reachable.continued_changes_whole (h : Reachable rt w)
    (hread : ctx.has_capability .Read = true) (limit : Nat) :
    (∃ pages, Paging.Finished
    (fun t cursor items next => t = w ∧ continued_changes rt ctx limit t cursor items next) pages ∧
      WholeFeed rt w.db ctx.workspace_id (Paging.contents pages)) ↔
    (w.db.feed ctx.workspace_id).length ≤ max limit 1 := by
  obtain ⟨c, hreached, rfl⟩ := h
  obtain ⟨hnumbered, hreadable⟩ := hreached.readable
  refine ⟨fun ⟨pages, hfinished, _⟩ => ?_, fun hfits => ?_⟩
  · by_contra hlong
    exact continued_changes_endless hread hnumbered hreadable (by omega) pages hfinished
  · obtain ⟨⟨items, next⟩, hanswer, hdelivers, hnone⟩ :=
      @continued_changes_first rt _ _ hread hnumbered hreadable limit
    obtain rfl : next = none := hnone.mpr hfits
    simp only at hdelivers
    refine ⟨[(c.state, items)], .last .start ⟨rfl, hanswer none⟩, ?_⟩
    rw [List.take_of_length_le hfits] at hdelivers
    refine ⟨by simpa [Paging.contents] using hdelivers, ?_⟩
    have hlength : c.state.db.change_seq ctx.workspace_id = items.length := by
      have hlength := congrArg List.length (hnumbered ctx.workspace_id)
      simp only [List.length_map, List.length_range'] at hlength
      rw [← hlength, hdelivers.length_eq]
    have hnumbers := hnumbered ctx.workspace_id
    rw [hlength, ← hdelivers.sequences] at hnumbers
    simpa [Paging.contents] using hnumbers

/-- A new workspace with the directories `/a` and `/b`. -/
def twiceRequests : List (RequestContext × Request) :=
  readRequests ++ [(.trusted 0, .Perform (.Mkdir (.named [['b']]) {}))]

/-- Their two changes, the whole feed, fit a page of two. -/
theorem read_continued_whole : ∃ pages, Paging.Finished (fun t cursor items next =>
      t = serveAll Runtime.counting twiceRequests ⟨Db.empty, 0⟩ ∧
        continued_changes Runtime.counting (.trusted 0) 2 t cursor items next) pages ∧
    WholeFeed Runtime.counting (serveAll Runtime.counting twiceRequests ⟨Db.empty, 0⟩).db 0
      (Paging.contents pages) :=
  (((Reachable.empty _).serveAll twiceRequests).continued_changes_whole (by rfl) 2).mpr
    (by decide +kernel)

/-- Of their two changes, pages of one change that are continued by the cursor of
the page request never come to an end. -/
theorem twice_continued_endless :
    Reachable Runtime.counting (serveAll Runtime.counting twiceRequests ⟨Db.empty, 0⟩) ∧
    (serveAll Runtime.counting twiceRequests ⟨Db.empty, 0⟩).db.feed 0 ≠ [] ∧
    ¬ ∃ pages, Paging.Finished
      (fun t cursor items next => t = serveAll Runtime.counting twiceRequests ⟨Db.empty, 0⟩ ∧
        continued_changes Runtime.counting (.trusted 0) 1 t cursor items next) pages ∧
      WholeFeed Runtime.counting (serveAll Runtime.counting twiceRequests ⟨Db.empty, 0⟩).db 0
        (Paging.contents pages) := by
  have hreachable : Reachable Runtime.counting
    (serveAll Runtime.counting twiceRequests ⟨Db.empty, 0⟩) :=
    (Reachable.empty _).serveAll _
  have hlength : ((serveAll Runtime.counting twiceRequests ⟨Db.empty, 0⟩).db.feed 0).length =
    2 := by decide +kernel
  refine ⟨hreachable, fun hnil => by simp [hnil] at hlength, fun ⟨pages, hfinished, _⟩ => ?_⟩
  obtain ⟨c, hreached, hstate⟩ := hreachable
  obtain ⟨hnumbered, hreadable⟩ := hreached.readable
  rw [hstate] at hnumbered hreadable
  exact continued_changes_endless (by rfl) hnumbered hreadable
    (by simpa using hlength ▸ Nat.one_lt_two) pages hfinished

end fslite
