import RowProduct.Fields

namespace RowProduct

/-- Named values, each name once, in the order of first insertion. -/
structure Record where
  fields : Fields
  nodup : fields.names.Nodup

abbrev Row := Record

/-- The record that column functions and merge predicates look at: the columns of the row and, inside a
group, those of the enclosing rows. -/
abbrev Scope := Record

namespace Record

def empty : Record := ⟨[], .nil⟩

instance : EmptyCollection Record := ⟨empty⟩

instance : Inhabited Record := ⟨empty⟩

@[ext]
theorem ext {a b : Record} (h : a.fields = b.fields) : a = b := by
  cases a; cases b; cases h; rfl

def get? (r : Record) (name : String) : Option Value := r.fields.lookup name

def contains (r : Record) (name : String) : Bool := (r.get? name).isSome

def names (r : Record) : List String := r.fields.names

def size (r : Record) : Nat := r.fields.length

def isEmpty (r : Record) : Bool := r.fields.isEmpty

def insert (r : Record) (name : String) (value : Value) : Record :=
  ⟨Fields.insert name value r.fields, Fields.nodup_insert r.nodup name value⟩

def overlay (r : Record) (top : Fields) : Record :=
  ⟨r.fields.overlay top, Fields.nodup_overlay r.nodup top⟩

def select (r : Record) (names : List String) : Record :=
  ⟨r.fields.select names, Fields.nodup_select r.fields names⟩

/-- The record without the columns of these names; one that has none of them stays as it is. -/
def discard (r : Record) (names : List String) : Record :=
  if names.any r.contains then ⟨r.fields.discard names, Fields.nodup_discard r.nodup names⟩ else r

def ofList (fields : Fields) : Record := empty.overlay fields

def toValue (r : Record) : Value := .object r.fields

def ofValue? : Value → Option Record
  | .object fields => some (ofList fields)
  | _ => none

def sameAs (r : Record) (v : Value) : Bool := r.toValue.same v

theorem empty_overlay (r : Record) : (∅ : Record).overlay r.fields = r :=
  ext (@Fields.overlay_eq_append [] r.fields r.nodup)

theorem get?_insert (r : Record) (name : String) (value : Value) (other : String) :
    (r.insert name value).get? other = if other = name then some value else r.get? other :=
  Fields.lookup_insert name value r.fields other

theorem get?_overlay (r : Record) (top : Fields) (name : String) :
    (r.overlay top).get? name = (top.reverse.lookup name).or (r.get? name) :=
  Fields.lookup_overlay r.fields top name

theorem get?_overlay_of_lookup (r : Record) {top : Fields} (htop : top.names.Nodup) {name : String} {v : Value}
    (h : top.lookup name = some v) : (r.overlay top).get? name = some v := by
  rw [get?_overlay, Fields.lookup_reverse htop, h, Option.some_or]

theorem get?_select (r : Record) (names : List String) (name : String) :
    (r.select names).get? name = if name ∈ names then r.get? name else none :=
  Fields.lookup_select r.fields names name

theorem get?_discard (r : Record) (names : List String) (name : String) :
    (r.discard names).get? name = if name ∈ names then none else r.get? name := by
  rw [discard]
  split
  · exact Fields.lookup_discard r.fields names name
  · next h =>
    split
    · next hname => simpa [contains] using fun hr ↦ h (List.any_eq_true.2 ⟨name, hname, hr⟩)
    · rfl

theorem contains_insert (r : Record) (name : String) (value : Value) (other : String) :
    (r.insert name value).contains other = (other == name || r.contains other) := by
  rw [contains, get?_insert]
  by_cases h : other = name <;> simp [h, contains]

theorem contains_overlay (r : Record) (top : Fields) (name : String) :
    (r.overlay top).contains name = ((top.reverse.lookup name).isSome || r.contains name) := by
  rw [contains, get?_overlay, Option.isSome_or]
  rfl

theorem contains_select (r : Record) (names : List String) (name : String) :
    (r.select names).contains name = (names.contains name && r.contains name) := by
  rw [contains, get?_select]
  by_cases h : name ∈ names <;> simp [h, contains]

theorem contains_discard (r : Record) (names : List String) (name : String) :
    (r.discard names).contains name = (!names.contains name && r.contains name) := by
  rw [contains, get?_discard]
  by_cases h : name ∈ names <;> simp [h, contains]

theorem contains_iff (r : Record) (name : String) : r.contains name ↔ name ∈ r.names :=
  Fields.isSome_lookup r.fields name

theorem names_select (r : Record) (names : List String) :
    (r.select names).names = (names.filter r.contains).eraseDups :=
  Fields.names_select r.fields names

theorem perm_of_get? {a b : Record} (h : ∀ name, a.get? name = b.get? name) : a.fields.Perm b.fields :=
  Fields.perm_of_lookup a.nodup b.nodup h

theorem eq_of_get? {a b : Record} (hnames : a.names = b.names) (h : ∀ name, a.get? name = b.get? name) : a = b :=
  ext (Fields.eq_of_lookup a.nodup hnames h)

theorem fields_insert (r : Record) (name : String) (value : Value) :
    (r.insert name value).fields = r.fields.insert name value := rfl

theorem fields_overlay (r : Record) (top : Fields) : (r.overlay top).fields = r.fields.overlay top := rfl

theorem fields_select (r : Record) (names : List String) :
    (r.select names).fields = r.fields.select names := rfl

theorem fields_discard (r : Record) (names : List String) :
    (r.discard names).fields = r.fields.discard names := by
  rw [discard]
  split
  · rfl
  · next h =>
    refine (Fields.discard_eq_self fun name hname hfield ↦ h ?_).symm
    exact List.any_eq_true.2 ⟨name, hname, (Fields.isSome_lookup r.fields name).2 hfield⟩

theorem names_discard (r : Record) (names : List String) :
    (r.discard names).names = r.names.filter fun name ↦ !names.contains name := by
  rw [Record.names, fields_discard, Fields.names_discard]
  rfl

theorem overlay_insert (r top : Record) (name : String) (value : Value) :
    r.overlay (top.insert name value).fields = (r.overlay top.fields).insert name value :=
  ext (Fields.overlay_insert r.fields top.nodup name value)

theorem overlay_overlay (r middle : Record) (top : Fields) :
    r.overlay (middle.overlay top).fields = (r.overlay middle.fields).overlay top :=
  ext (Fields.overlay_overlay r.fields middle.nodup top)

theorem overlay_self (r : Record) : r.overlay r.fields = r :=
  ext (Fields.overlay_eq_self fun _ hfield ↦ (Fields.lookup_eq_some_iff r.nodup).2 hfield)

theorem overlay_eq_foldl (r : Record) (top : Fields) :
    r.overlay top = top.foldl (fun r field ↦ r.insert field.1 field.2) r := by
  induction top generalizing r with
  | nil => rfl
  | cons field top ih => exact ih (r.insert field.1 field.2)

theorem ofList_discard (r : Record) (names : List String) : ofList (r.fields.discard names) = r.discard names := by
  rw [← fields_discard]
  exact empty_overlay (r.discard names)

theorem discard_insert (r : Record) (name : String) (value : Value) (names : List String) :
    (r.insert name value).discard names =
      if name ∈ names then r.discard names else (r.discard names).insert name value := by
  refine ext ?_
  rw [fields_discard, fields_insert, Fields.discard_insert]
  split
  · rw [fields_discard]
  · rw [fields_insert, fields_discard]

theorem discard_overlay (r : Record) (top : Fields) (names : List String) :
    (r.overlay top).discard names = (r.discard names).overlay (top.discard names) := by
  refine ext ?_
  rw [fields_discard, fields_overlay, Fields.discard_overlay, fields_overlay, fields_discard]

theorem discard_insert_of_mem (r : Record) {name : String} {names : List String} (h : name ∈ names)
    (value : Value) : (r.insert name value).discard names = r.discard names := by
  rw [discard_insert, if_pos h]

theorem discard_overlay_of_subset (r : Record) {top : Fields} {names : List String} (h : top.names ⊆ names) :
    (r.overlay top).discard names = r.discard names := by
  have hnil : top.discard names = [] := by
    refine List.filter_eq_nil_iff.2 fun field hfield ↦ ?_
    have hname : field.1 ∈ names := h (List.mem_map_of_mem hfield)
    simpa using hname
  rw [discard_overlay, hnil]
  rfl

theorem discard_discard (r : Record) (names dropped : List String) :
    (r.discard names).discard dropped = (r.discard dropped).discard names := by
  refine ext ?_
  simp only [fields_discard, Fields.discard_discard r.fields names]

theorem discard_append (r : Record) (names dropped : List String) :
    (r.discard names).discard dropped = r.discard (names ++ dropped) := by
  refine ext ?_
  rw [fields_discard, fields_discard, fields_discard, Fields.discard_append]

theorem discard_select (r : Record) (names dropped : List String) :
    (r.select names).discard dropped = (r.discard dropped).select names := by
  refine ext ?_
  rw [fields_discard, fields_select, Fields.discard_select, fields_select, fields_discard]

theorem discard_eq_self {r : Record} {names : List String} (h : ∀ name ∈ names, r.contains name = false) :
    r.discard names = r := by
  have hnone : ¬ names.any r.contains := by simpa using h
  rw [discard, if_neg hnone]

theorem select_filter_congr {r : Record} {p q : String → Bool} (h : ∀ name, r.contains name → p name = q name)
    (names : List String) : r.select (names.filter p) = r.select (names.filter q) :=
  ext (Fields.select_filter_congr h names)

theorem select_filter_contains (r : Record) (names : List String) :
    r.select (names.filter r.contains) = r.select names := by
  have h := @select_filter_congr r r.contains (fun _ ↦ true) (fun _ h ↦ h) names
  rwa [List.filter_eq_self.2 fun _ _ ↦ rfl] at h

theorem select_congr {r r' : Record} {names : List String} (h : ∀ name ∈ names, r'.get? name = r.get? name) :
    r'.select names = r.select names :=
  ext (Fields.select_congr h)

theorem discard_select_filter (r : Record) (names dropped : List String) :
    (r.select names).discard dropped = r.select (names.filter fun name ↦ !dropped.contains name) := by
  have hfilter := @select_filter_congr (r.discard dropped) (fun _ ↦ true) (fun name ↦ !dropped.contains name)
    (fun name hname ↦ by
      rw [contains_discard, Bool.and_eq_true] at hname
      exact hname.1.symm) names
  rw [List.filter_eq_self.2 fun _ _ ↦ rfl] at hfilter
  rw [discard_select, hfilter]
  refine select_congr fun name hname ↦ ?_
  have hkept : name ∉ dropped := by simpa using (List.mem_filter.1 hname).2
  rw [get?_discard, if_neg hkept]

end Record

end RowProduct
