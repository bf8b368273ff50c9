import Fslite.Command.Remote
import Fslite.Server.Handlers

namespace fslite

open http routes RemoteExecutor

/-- What is known of the JSON of an object: it is read as the object, with its fields in some
order, it is not empty, and it is short. -/
structure http.Libraries.Carries (lib : Libraries) (object : Object) : Prop where
  read : ∃ fields, lib.from_slice (lib.to_vec object) = some fields ∧ fields.Perm object
  nonempty : lib.to_vec object ≠ []
  short : (lib.to_vec object).length ≤ MAX_TRUNCATE_BODY_BYTES

/-- A revision that fits its type. -/
def RevisionFits (expected : Option Revision) : Prop :=
  ∀ revision, expected = some revision → revision.get ≤ U64_MAX

section query

variable {key value : Text} {expected : Option Revision}

/-- What stands before the revision in a query. -/
theorem get_first (hkey : key ≠ "expected_revision".toList) :
    get ((key, value) :: revision_query expected) key = some value := by
  unfold get revision_query
  generalize "expected_revision".toList = name at hkey
  cases expected with
  | none => simp
  | some revision => simp [Ne.symm hkey]

theorem get_revision (hkey : key ≠ "expected_revision".toList) :
    get ((key, value) :: revision_query expected) "expected_revision".toList =
      expected.map (fun revision => decimal revision.get) := by
  unfold get revision_query
  generalize "expected_revision".toList = name at hkey
  cases expected with
  | none => simp [hkey]
  | some revision => simp

theorem query_revision_read (hkey : key ≠ "expected_revision".toList)
    (hfits : RevisionFits expected) :
    query_revision ((key, value) :: revision_query expected) = .ok expected := by
  unfold query_revision
  rw [get_revision hkey]
  cases expected with
  | none => rfl
  | some revision =>
    simp only [Option.map_some, parse_uint_decimal (hfits revision rfl)]
    rw [Revision.new, dif_pos revision.pos]

theorem revision_from_read : revision_from (expected.map Revision.get) = .ok expected := by
  cases expected with
  | none => rfl
  | some revision =>
    obtain ⟨n, hpos⟩ := revision
    cases n with
    | zero => exact absurd hpos (Nat.lt_irrefl 0)
    | succ n => rfl

theorem query_bool_read (hkey : key ≠ "expected_revision".toList) (b default : Bool) :
    query_bool ((key, bool_text b) :: revision_query expected) key default = .ok b := by
  unfold query_bool
  rw [get_first hkey]
  cases b <;> rfl

end query

section body

variable {lib : Libraries} {fields object : Object} {expected : Option Revision}

/-- The order of the fields does not matter. -/
theorem http.Object.field_perm (h : fields.Perm object) (key : Text) :
    fields.field key = object.field key := by
  have hperm := h.filter (fun pair => decide (pair.1 = key))
  unfold field
  generalize fields.filter (fun pair => decide (pair.1 = key)) = found at hperm ⊢
  generalize object.filter (fun pair => decide (pair.1 = key)) = found' at hperm ⊢
  match found, found', hperm with
  | [], _, hperm => rw [List.nil_perm.mp hperm]
  | [pair], _, hperm => rw [List.singleton_perm.mp hperm]
  | _ :: _ :: _, [], hperm => cases hperm.length_eq
  | _ :: _ :: _, [_], hperm => cases hperm.length_eq
  | _ :: _ :: _, _ :: _ :: _, _ => rfl

/-- A body is read by the fields of its object. -/
theorem read_body_of_carries (hlib : lib.Carries object) {A : Type} {reads : Object → Option A}
    {a : A} (hperm : ∀ fields, fields.Perm object → reads fields = reads object)
    (hreads : reads object = some a) : read_body lib (lib.to_vec object) reads = .ok a := by
  obtain ⟨fields, hfields, hobject⟩ := hlib.read
  unfold read_body
  rw [hfields, Option.bind_some, hperm fields hobject, hreads]

theorem optional_uint_revision {key : Text} (hfits : RevisionFits expected)
    (hfield : object.field key = some (some (revision_json expected))) :
    object.optional_uint key = some (expected.map Revision.get) := by
  unfold http.Object.optional_uint
  rw [hfield]
  cases expected with
  | none => rfl
  | some revision => exact if_pos (hfits revision rfl)

variable {path : VirtualPath}

theorem mkdir_body_read {options : CreateOptions} (hfits : RevisionFits options.expected_revision)
    (hlib : ∀ object, Command.json (.Mkdir path options) = some object → lib.Carries object) :
    read_body lib (Command.body lib (.Mkdir path options)) mkdir_body =
      .ok ⟨options.parents, options.exist_ok, options.expected_revision.map Revision.get⟩ := by
  refine read_body_of_carries (hlib _ rfl) (fun fields hperm => ?_) ?_
  · simp only [mkdir_body, http.Object.flag, http.Object.optional_uint,
      http.Object.field_perm hperm]
  · unfold mkdir_body
    rw [optional_uint_revision hfits rfl]
    rfl

theorem truncate_body_read {length : Nat} {options : MutationOptions} (hlength : length ≤ U64_MAX)
    (hfits : RevisionFits options.expected_revision)
    (hlib : ∀ object, Command.json (.Truncate path length options) = some object →
      lib.Carries object) :
    read_body lib (Command.body lib (.Truncate path length options)) truncate_body =
      .ok ⟨length, options.expected_revision.map Revision.get⟩ := by
  refine read_body_of_carries (hlib _ rfl) (fun fields hperm => ?_) ?_
  · simp only [truncate_body, http.Object.uint, http.Object.optional_uint,
      http.Object.field_perm hperm]
  · unfold truncate_body
    have huint : http.Object.uint [("length".toList, .number length),
        ("expected_revision".toList, revision_json options.expected_revision)] "length".toList =
          some length := if_pos hlength
    rw [huint, optional_uint_revision hfits rfl]
    rfl

theorem patch_body_read {options : TouchOptions} (hfits : RevisionFits options.expected_revision)
    (hlib : ∀ object, Command.json (.Touch path options) = some object → lib.Carries object) :
    read_body lib (Command.body lib (.Touch path options)) patch_body =
      .ok (.Touch options.create (options.expected_revision.map Revision.get)) := by
  refine read_body_of_carries (hlib _ rfl) (fun fields hperm => ?_) ?_
  · simp only [patch_body, http.Object.flag, http.Object.text, http.Object.optional_uint,
      http.Object.field_perm hperm]
  · unfold patch_body
    rw [optional_uint_revision hfits rfl]
    rfl

end body

end fslite
