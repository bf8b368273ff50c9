import Fslite.Sqlite.Pattern
import Fslite.Sqlite.Run.Search

namespace fslite

open Paging

namespace search

section anchored

variable {rt : Runtime} {method : Db → PageRequest → FsResult (Page Node)} {limit : Nat} {w : World}
  {ws : WorkspaceId}
variable {anchor : VirtualPath} {names : List Text} {raw : RawNode}

/-- The way from the root leads through the anchor. -/
theorem leads_root_iff {db : Db} :
    Leads ws VirtualPath.root db (anchor.segments ++ names) raw ↔ Leads ws anchor db names raw := by
  simp only [Leads, VirtualPath.segments_root, List.nil_append]

/-- What is found keeps its order when all of it is named from further up. -/
theorem ascending_extend (front : List Text) {found : List (List Text × RawNode)}
    (h : Ascending found_key found) :
    Ascending found_key (found.map (fun f => (front ++ f.1, f.2))) := by
  refine List.pairwise_map.mpr (h.imp (fun {a b} hlt => ?_))
  rw [found_key, found_key, position_key, position_key, Prod.Lex.toLex_lt_toLex] at hlt ⊢
  simp only [List.length_append] at hlt ⊢
  obtain hlt | ⟨heq, hlt⟩ := hlt
  · exact Or.inl (by omega)
  · exact Or.inr ⟨by omega, hlt⟩

/-- A search that is complete below the anchor is complete below the root, for the
condition that puts the names of the anchor first. -/
theorem Complete.at_root {filter whole : List Text → RawNode → Bool}
    (h : Complete rt method limit w ws anchor filter)
    (hwhole : ∀ names raw, whole names raw = true ↔ ∃ rest, names = anchor.segments ++ rest ∧
    filter rest raw = true) :
    Complete rt method limit w ws VirtualPath.root whole := by
  refine ⟨h.finishes, fun pages hpages => ?_, h.once⟩
  obtain ⟨found, hascending, hfound, hshows⟩ := h.lists pages hpages
  refine ⟨found.map (fun f => (anchor.segments ++ f.1, f.2)),
    ascending_extend anchor.segments hascending, fun names raw => ?_,
    List.forall₂_map_left_iff.mpr hshows⟩
  rw [List.mem_map, hwhole]
  constructor
  · rintro ⟨⟨rest, raw'⟩, hmem, heq⟩
    obtain ⟨rfl, rfl⟩ := Prod.mk.inj heq
    obtain ⟨hleads, hfilter⟩ := (hfound rest raw').mp hmem
    exact ⟨leads_root_iff.mpr hleads, rest, rfl, hfilter⟩
  · rintro ⟨hleads, rest, rfl, hfilter⟩
    exact ⟨(rest, raw), (hfound rest raw).mpr ⟨leads_root_iff.mp hleads, hfilter⟩, rfl⟩

end anchored

/-- The whole pattern matches the names of the anchor followed by those that the rest of
the pattern matches. -/
theorem glob_match_anchored {compiled : List PatternSegment} {anchor : VirtualPath} {count : Nat}
    (hanchor : literal_prefix VirtualPath.root compiled = some (anchor, count))
    (hnames : ∀ name ∈ literals compiled, Segment name) (names : List Text) :
    glob_match compiled names = true ↔
      ∃ rest, names = anchor.segments ++ rest ∧ glob_match (compiled.drop count) rest = true := by
  have hsegments := literal_prefix_segments hanchor hnames
  rw [VirtualPath.segments_root, List.nil_append] at hsegments
  rw [hsegments, literal_prefix_count hanchor, glob_match_iff]
  nth_rewrite 1 [← literals_append_drop compiled]
  simp only [matches_literals_iff, glob_match_iff]

end search

/-- The anchor of `glob` changes nothing: over its pages it lists the nodes whose names
from the root on the whole pattern matches. -/
theorem glob_anchor_neutral (rt : Runtime) (cursors : SqliteFileSystem.Cursors)
    (ctx : RequestContext) (hread : ctx.has_capability .Read = true) (w : World)
    (hreach : Reachable rt w) (hshallow : Shallow ctx.workspace_id w.db) (pattern : Text)
    (compiled : List search.PatternSegment)
    (hcompile : search.compile_pattern pattern = .ok compiled)
    (hordinary : ∀ name, search.PatternSegment.Literal name ∈ compiled → NUL ∉ name ∧ name ≠ ['.'] ∧
    name ≠ ['.', '.'])
    (limit : Nat) : search.Complete rt
    (fun db page => SqliteFileSystem.glob rt cursors ctx db pattern page) limit w
      ctx.workspace_id VirtualPath.root (fun names _ => search.glob_match compiled names) := by
  have hnames : ∀ name ∈ search.literals compiled, Segment name := by
    intro name hname
    have hmem := search.mem_of_mem_literals hname
    obtain ⟨hne, hslash⟩ := search.compile_pattern_literal hcompile hmem
    obtain ⟨hnul, hdot, hdots⟩ := hordinary name hmem
    exact ⟨hne, hdot, hdots, hslash, hnul⟩
  have hprefix : search.literal_prefix VirtualPath.root compiled ≠ none := by
    refine search.literal_prefix_ne_none.mpr (fun name hname => ?_)
    have hraw := (hnames name hname).raw
    rintro (hslash | hnul)
    · exact hraw.1 (List.mem_of_mem_head? hslash)
    · exact hraw.2 hnul
  obtain ⟨⟨anchor, count⟩, hanchor⟩ := Option.ne_none_iff_exists'.mp hprefix
  have hcomplete := @search.glob_complete rt limit w cursors ctx hread hreach hshallow pattern
    compiled anchor count hcompile hanchor
  exact hcomplete.at_root (fun names _ => search.glob_match_anchored hanchor hnames names)

/-- What `/a/**` finds in the new workspace. -/
theorem empty_glob_anchor_neutral :
    search.Complete Runtime.counting (fun db page => SqliteFileSystem.glob Runtime.counting
      SqliteFileSystem.Cursors.counting
        (.trusted 0) db "/a/**".toList page) 1 emptyWorld 0 VirtualPath.root
      (fun names _ => search.glob_match [.Literal ['a'], .DoubleStar] names) :=
  glob_anchor_neutral Runtime.counting SqliteFileSystem.Cursors.counting
    (.trusted 0) rfl emptyWorld emptyWorld_reachable
    emptyWorld_shallow "/a/**".toList [.Literal ['a'], .DoubleStar] rfl (by simp [NUL]) 1

end fslite
