import RowProduct.Value

namespace RowProduct.Fields

def names (fields : Fields) : List String := fields.map Prod.fst

/-- A name that is there already keeps its place. -/
def insert (name : String) (value : Value) : Fields → Fields
  | [] => [(name, value)]
  | field :: fields =>
    if field.1 = name then (name, value) :: fields else field :: insert name value fields

def overlay (base top : Fields) : Fields :=
  top.foldl (fun fields field ↦ insert field.1 field.2 fields) base

def select (fields : Fields) (names : List String) : Fields :=
  overlay [] (names.filterMap fun name ↦ (fields.lookup name).map (name, ·))

def discard (fields : Fields) (names : List String) : Fields :=
  fields.filter fun field ↦ !names.contains field.1

theorem names_insert (name : String) (value : Value) (fields : Fields) :
    (insert name value fields).names =
      if name ∈ fields.names then fields.names else fields.names ++ [name] := by
  induction fields with
  | nil => rfl
  | cons field fields ih =>
    by_cases h : field.1 = name
    · simp [insert, names, h]
    · simp only [insert, if_neg h, names, List.map_cons, List.mem_cons] at ih ⊢
      rw [ih]
      by_cases hm : name ∈ fields.map Prod.fst <;> simp [hm, Ne.symm h]

theorem nodup_insert {fields : Fields} (h : fields.names.Nodup) (name : String) (value : Value) :
    (insert name value fields).names.Nodup := by
  rw [names_insert]
  split
  · exact h
  · next hn =>
    refine List.nodup_append.2 ⟨h, by simp, fun a ha b hb e ↦ hn ?_⟩
    rwa [← List.mem_singleton.1 hb, ← e]

theorem nodup_overlay {base : Fields} (h : base.names.Nodup) (top : Fields) :
    (overlay base top).names.Nodup := by
  induction top generalizing base with
  | nil => exact h
  | cons field top ih => exact ih (nodup_insert h field.1 field.2)

theorem nodup_select (fields : Fields) (names : List String) : (select fields names).names.Nodup :=
  @nodup_overlay [] .nil _

theorem nodup_discard {fields : Fields} (h : fields.names.Nodup) (names : List String) :
    (discard fields names).names.Nodup :=
  h.sublist (List.filter_sublist.map Prod.fst)

theorem names_discard (fields : Fields) (names : List String) :
    (discard fields names).names = fields.names.filter fun name ↦ !names.contains name := by
  rw [discard, Fields.names, Fields.names, List.filter_map]
  rfl

theorem insert_of_not_mem {name : String} {fields : Fields} (h : name ∉ fields.names) (value : Value) :
    insert name value fields = fields ++ [(name, value)] := by
  induction fields with
  | nil => rfl
  | cons field fields ih =>
    obtain ⟨hname, hnames⟩ := not_or.1 (mt List.mem_cons.2 h)
    rw [insert, if_neg (Ne.symm hname), ih hnames]
    rfl

theorem overlay_eq_append {base top : Fields} (h : (base ++ top).names.Nodup) : overlay base top = base ++ top := by
  induction top generalizing base with
  | nil => exact (List.append_nil base).symm
  | cons field top ih =>
    have hmoved : base ++ field :: top = base ++ [field] ++ top := by simp
    have hfield : field.1 ∉ base.names := by
      intro hmem
      rw [names, List.map_append] at h
      exact (List.nodup_append.1 h).2.2 field.1 hmem field.1 List.mem_cons_self rfl
    rw [hmoved] at h ⊢
    rw [← ih h, ← insert_of_not_mem hfield field.2]
    rfl

theorem names_overlay (base top : Fields) :
    (overlay base top).names = base.names ++ (top.names.removeAll base.names).eraseDups := by
  induction top generalizing base with
  | nil => exact (List.append_nil _).symm
  | cons field top ih =>
    have hoverlay : overlay base (field :: top) = overlay (insert field.1 field.2 base) top := rfl
    have hnames : names (field :: top) = field.1 :: names top := rfl
    rw [hoverlay, ih, names_insert, hnames, List.cons_removeAll]
    by_cases h : field.1 ∈ base.names
    · rw [if_pos h, if_neg (by simpa using h)]
    · have hremove : (names top).removeAll (base.names ++ [field.1]) =
          ((names top).removeAll base.names).filter fun name ↦ !name == field.1 := by
        simp only [List.removeAll, List.filter_filter]
        refine List.filter_congr fun name _ ↦ ?_
        by_cases hname : name = field.1 <;> simp [hname]
      rw [if_neg h, if_pos (by simpa using h), List.eraseDups_cons, hremove, List.append_assoc,
        List.singleton_append]

theorem names_select (fields : Fields) (names : List String) :
    (select fields names).names = (names.filter fun name ↦ (fields.lookup name).isSome).eraseDups := by
  have hnames : Fields.names (names.filterMap fun name ↦ (fields.lookup name).map (name, ·)) =
      names.filter fun name ↦ (fields.lookup name).isSome := by
    induction names with
    | nil => rfl
    | cons name names ih =>
      cases hlookup : fields.lookup name with
      | none =>
        rw [List.filterMap_cons_none (by rw [hlookup]; rfl), ih, List.filter_cons_of_neg (by simp [hlookup])]
      | some v =>
        rw [List.filterMap_cons_some (by rw [hlookup]; rfl), List.filter_cons_of_pos (by simp [hlookup]), ← ih]
        rfl
  have hnil (names : List String) : names.removeAll [] = names := List.filter_eq_self.2 fun _ _ ↦ rfl
  rw [select, names_overlay, hnames]
  exact congrArg List.eraseDups (hnil _)

theorem lookup_cons (field : String × Value) (fields : Fields) (name : String) :
    List.lookup name (field :: fields) = if name = field.1 then some field.2 else fields.lookup name := by
  obtain ⟨other, value⟩ := field
  rw [List.lookup_cons]
  split
  · next h => rw [if_pos (beq_iff_eq.1 h)]
  · next h => rw [if_neg (beq_eq_false_iff_ne.1 h)]

theorem isSome_lookup (fields : Fields) (name : String) : (fields.lookup name).isSome ↔ name ∈ fields.names := by
  induction fields with
  | nil => simp [names]
  | cons field fields ih =>
    rw [lookup_cons, names, List.map_cons, List.mem_cons, ← names, ← ih]
    by_cases h : name = field.1 <;> simp [h]

theorem lookup_insert (name : String) (value : Value) (fields : Fields) (other : String) :
    (insert name value fields).lookup other = if other = name then some value else fields.lookup other := by
  induction fields with
  | nil => simp only [insert, lookup_cons]
  | cons field fields ih =>
    by_cases hname : field.1 = name
    · subst hname
      simp only [insert, ↓reduceIte, lookup_cons]
      split <;> rfl
    · simp only [insert, if_neg hname, lookup_cons, ih]
      by_cases h : other = field.1 <;> simp [h, hname]

theorem lookup_reverse {fields : Fields} (h : fields.names.Nodup) (name : String) :
    fields.reverse.lookup name = fields.lookup name := by
  induction fields with
  | nil => rfl
  | cons field fields ih =>
    obtain ⟨hfield, hnodup⟩ := List.nodup_cons.1 h
    rw [List.reverse_cons, List.lookup_append, ih hnodup, lookup_cons, lookup_cons, List.lookup_nil]
    by_cases hname : name = field.1
    · have hnone : fields.lookup name = none := by
        rw [← Option.not_isSome_iff_eq_none, isSome_lookup, hname]
        exact hfield
      rw [hnone, if_pos hname, Option.none_or]
    · rw [if_neg hname, if_neg hname, Option.or_none]

theorem lookup_overlay (base top : Fields) (name : String) :
    (overlay base top).lookup name = (top.reverse.lookup name).or (base.lookup name) := by
  induction top generalizing base with
  | nil => rfl
  | cons field top ih =>
    have hoverlay : overlay base (field :: top) = overlay (insert field.1 field.2 base) top := rfl
    rw [hoverlay, ih, lookup_insert, List.reverse_cons, List.lookup_append, Option.or_assoc, lookup_cons,
      List.lookup_nil]
    split <;> simp

theorem lookup_select (fields : Fields) (names : List String) (name : String) :
    (select fields names).lookup name = if name ∈ names then fields.lookup name else none := by
  let entry (name : String) : Option (String × Value) := (fields.lookup name).map (name, ·)
  have hentries (names : List String) :
      (names.filterMap entry).lookup name = if name ∈ names then fields.lookup name else none := by
    induction names with
    | nil => rfl
    | cons other names ih =>
      cases hother : fields.lookup other with
      | none =>
        have he : entry other = none := by simp [entry, hother]
        rw [List.filterMap_cons_none he, ih]
        by_cases h : name = other <;> simp [h, hother]
      | some value =>
        have he : entry other = some (other, value) := by simp [entry, hother]
        rw [List.filterMap_cons_some he, lookup_cons, ih]
        by_cases h : name = other <;> simp [h, hother]
  rw [select, lookup_overlay, ← List.filterMap_reverse, hentries, List.lookup_nil, Option.or_none]
  simp only [List.mem_reverse]

theorem lookup_discard (fields : Fields) (names : List String) (name : String) :
    (discard fields names).lookup name = if name ∈ names then none else fields.lookup name := by
  induction fields with
  | nil => simp [discard]
  | cons field fields ih =>
    rw [discard, List.filter_cons, ← discard, lookup_cons]
    by_cases hname : field.1 ∈ names
    · have hdrop : ¬ (!names.contains field.1) := by simp [hname]
      rw [if_neg hdrop, ih]
      by_cases h : name = field.1 <;> simp [h, hname]
    · have hkeep : !names.contains field.1 := by simp [hname]
      rw [if_pos hkeep, lookup_cons, ih]
      by_cases h : name = field.1 <;> simp [h, hname]

theorem lookup_eq_some_iff {fields : Fields} (h : fields.names.Nodup) {field : String × Value} :
    fields.lookup field.1 = some field.2 ↔ field ∈ fields := by
  induction fields with
  | nil => simp
  | cons other fields ih =>
    obtain ⟨hother, hnodup⟩ := List.nodup_cons.1 h
    rw [lookup_cons, List.mem_cons]
    split
    · next hname =>
      have hmem : field ∉ fields := fun hmem ↦ hother (hname ▸ List.mem_map_of_mem hmem)
      simp [hmem, Prod.ext_iff, hname, eq_comm]
    · next hname =>
      rw [ih hnodup]
      simp [Prod.ext_iff, hname]

theorem perm_of_lookup {a b : Fields} (ha : a.names.Nodup) (hb : b.names.Nodup)
    (h : ∀ name, a.lookup name = b.lookup name) : a.Perm b := by
  have hnodup {fields : Fields} (hfields : fields.names.Nodup) : fields.Nodup :=
    List.Pairwise.of_map Prod.fst (fun _ _ hne heq ↦ hne (congrArg Prod.fst heq)) hfields
  refine (List.perm_ext_iff_of_nodup (hnodup ha) (hnodup hb)).2 fun field ↦ ?_
  rw [← lookup_eq_some_iff ha, ← lookup_eq_some_iff hb, h]

theorem eq_of_lookup {a b : Fields} (ha : a.names.Nodup) (hnames : a.names = b.names)
    (h : ∀ name, a.lookup name = b.lookup name) : a = b := by
  have hentries {fields : Fields} (hfields : fields.names.Nodup) :
      fields.map (fun field ↦ (field.1, some field.2)) = fields.names.map fun name ↦ (name, fields.lookup name) := by
    rw [names, List.map_map]
    refine List.map_congr_left fun field hfield ↦ ?_
    rw [Function.comp, (lookup_eq_some_iff hfields).2 hfield]
  have hb : b.names.Nodup := hnames ▸ ha
  have hmap : a.map (fun field ↦ (field.1, some field.2)) = b.map fun field ↦ (field.1, some field.2) := by
    rw [hentries ha, hentries hb, hnames]
    exact List.map_congr_left fun name _ ↦ congrArg (Prod.mk name) (h name)
  refine (List.map_inj_right fun field other heq ↦ ?_).1 hmap
  exact Prod.ext (Prod.ext_iff.1 heq).1 (Option.some.inj (Prod.ext_iff.1 heq).2)

theorem insert_insert (name : String) (v w : Value) (fields : Fields) :
    insert name w (insert name v fields) = insert name w fields := by
  induction fields with
  | nil => simp [insert]
  | cons field fields ih =>
    by_cases h : field.1 = name
    · simp [insert, h]
    · simp only [insert, if_neg h, ih]

theorem insert_eq_self {name : String} {value : Value} {fields : Fields} (h : fields.lookup name = some value) :
    insert name value fields = fields := by
  induction fields with
  | nil => cases h
  | cons field fields ih =>
    rw [lookup_cons] at h
    by_cases hname : name = field.1
    · rw [if_pos hname] at h
      rw [insert, if_pos hname.symm, hname, ← Option.some.inj h]
    · rw [if_neg hname] at h
      rw [insert, if_neg (Ne.symm hname), ih h]

theorem overlay_eq_self {base top : Fields} (h : ∀ field ∈ top, base.lookup field.1 = some field.2) :
    overlay base top = base := by
  induction top with
  | nil => rfl
  | cons field top ih =>
    obtain ⟨hfield, htop⟩ := List.forall_mem_cons.1 h
    calc overlay base (field :: top)
        = overlay (insert field.1 field.2 base) top := rfl
      _ = base := by rw [insert_eq_self hfield, ih htop]

theorem insert_comm {name other : String} {fields : Fields} (hmem : name ∈ fields.names)
    (hne : other ≠ name) (v w : Value) :
    insert name v (insert other w fields) = insert other w (insert name v fields) := by
  induction fields with
  | nil => cases hmem
  | cons field fields ih =>
    by_cases hname : field.1 = name
    · have hother : field.1 ≠ other := fun h ↦ hne (h.symm.trans hname)
      simp only [insert, if_pos hname, if_neg hother, if_neg hne.symm]
    · have hmem : name ∈ names fields := (List.mem_cons.1 hmem).resolve_left (Ne.symm hname)
      by_cases hother : field.1 = other
      · simp only [insert, if_neg hname, if_pos hother, if_neg hne]
      · simp only [insert, if_neg hname, if_neg hother, ih hmem]

theorem insert_overlay {name : String} {base top : Fields} (hbase : name ∈ base.names)
    (htop : name ∉ top.names) (v : Value) :
    insert name v (overlay base top) = overlay (insert name v base) top := by
  induction top generalizing base with
  | nil => rfl
  | cons field top ih =>
    obtain ⟨hname, hnames⟩ := not_or.1 (mt List.mem_cons.2 htop)
    have hinsert : name ∈ (insert field.1 field.2 base).names := by
      rw [names_insert]
      split
      · exact hbase
      · exact List.mem_append_left _ hbase
    calc insert name v (overlay (insert field.1 field.2 base) top)
        = overlay (insert name v (insert field.1 field.2 base)) top := ih hinsert hnames
      _ = overlay (insert field.1 field.2 (insert name v base)) top := by
          rw [insert_comm hbase (Ne.symm hname)]

theorem overlay_insert (base : Fields) {top : Fields} (h : top.names.Nodup) (name : String) (v : Value) :
    overlay base (insert name v top) = insert name v (overlay base top) := by
  induction top generalizing base with
  | nil => rfl
  | cons field top ih =>
    obtain ⟨hfield, hnodup⟩ := List.nodup_cons.1 h
    by_cases hname : field.1 = name
    · subst hname
      have hmem : field.1 ∈ (insert field.1 field.2 base).names := by
        rw [names_insert]
        split
        · assumption
        · exact List.mem_append_right _ List.mem_cons_self
      calc overlay base (insert field.1 v (field :: top))
          = overlay (insert field.1 v base) top := by rw [insert, if_pos rfl]; rfl
        _ = overlay (insert field.1 v (insert field.1 field.2 base)) top := by rw [insert_insert]
        _ = insert field.1 v (overlay base (field :: top)) := (insert_overlay hmem hfield v).symm
    · rw [insert, if_neg hname]
      exact ih (insert field.1 field.2 base) hnodup

theorem overlay_overlay (base : Fields) {middle : Fields} (h : middle.names.Nodup) (top : Fields) :
    overlay base (overlay middle top) = overlay (overlay base middle) top := by
  induction top generalizing middle with
  | nil => rfl
  | cons field top ih =>
    calc overlay base (overlay (insert field.1 field.2 middle) top)
        = overlay (overlay base (insert field.1 field.2 middle)) top :=
          ih (nodup_insert h field.1 field.2)
      _ = overlay (overlay base middle) (field :: top) := by rw [overlay_insert base h]; rfl

theorem discard_cons (field : String × Value) (fields : Fields) (names : List String) :
    discard (field :: fields) names =
      if field.1 ∈ names then discard fields names else field :: discard fields names := by
  by_cases h : field.1 ∈ names <;> simp [discard, h]

theorem discard_eq_self {fields : Fields} {names : List String} (h : ∀ name ∈ names, name ∉ fields.names) :
    discard fields names = fields := by
  refine List.filter_eq_self.2 fun field hfield ↦ ?_
  have hname : field.1 ∉ names := fun hname ↦ h field.1 hname (List.mem_map_of_mem hfield)
  simpa using hname

theorem discard_insert (name : String) (value : Value) (fields : Fields) (names : List String) :
    discard (insert name value fields) names =
      if name ∈ names then discard fields names else insert name value (discard fields names) := by
  induction fields with
  | nil => simp only [insert, discard_cons]; rfl
  | cons field fields ih =>
    by_cases hname : field.1 = name
    · subst hname
      by_cases h : field.1 ∈ names <;> simp [insert, discard_cons, h]
    · by_cases hfield : field.1 ∈ names
      · simp only [insert, if_neg hname, discard_cons, if_pos hfield, ih]
      · simp only [insert, if_neg hname, discard_cons, if_neg hfield, ih]
        split <;> rfl

theorem discard_overlay (base top : Fields) (names : List String) :
    discard (overlay base top) names = overlay (discard base names) (discard top names) := by
  induction top generalizing base with
  | nil => rfl
  | cons field top ih =>
    have hoverlay : overlay base (field :: top) = overlay (insert field.1 field.2 base) top := rfl
    rw [hoverlay, ih, discard_insert, discard_cons]
    split <;> rfl

theorem discard_discard (fields : Fields) (names dropped : List String) :
    discard (discard fields names) dropped = discard (discard fields dropped) names := by
  rw [discard, discard, discard, discard, List.filter_filter, List.filter_filter]
  exact List.filter_congr fun field _ ↦ Bool.and_comm ..

theorem discard_append (fields : Fields) (names dropped : List String) :
    discard (discard fields names) dropped = discard fields (names ++ dropped) := by
  rw [discard, discard, discard, List.filter_filter]
  refine List.filter_congr fun field _ ↦ ?_
  rw [List.contains_append, Bool.not_or, Bool.and_comm]

theorem discard_select (fields : Fields) (names dropped : List String) :
    discard (select fields names) dropped = select (discard fields dropped) names := by
  rw [select, select, discard_overlay]
  refine congrArg (overlay []) ?_
  induction names with
  | nil => rfl
  | cons name names ih =>
    rw [List.filterMap_cons, List.filterMap_cons, lookup_discard, ← ih]
    cases hlookup : fields.lookup name with
    | none => simp
    | some v =>
      by_cases hname : name ∈ dropped <;> simp [discard_cons, hname]

theorem select_congr {fields fields' : Fields} {names : List String}
    (h : ∀ name ∈ names, fields'.lookup name = fields.lookup name) : select fields' names = select fields names := by
  have hentries (lookup : String → Option Value) : names.filterMap (fun name ↦ (lookup name).map (name, ·)) =
      (names.map fun name ↦ (lookup name).map (name, ·)).filterMap id := by
    rw [List.filterMap_map]
    rfl
  rw [select, select, hentries, hentries, List.map_congr_left fun name hname ↦ by rw [h name hname]]

theorem select_filter_congr {fields : Fields} {p q : String → Bool}
    (h : ∀ name, (fields.lookup name).isSome → p name = q name) (names : List String) :
    select fields (names.filter p) = select fields (names.filter q) := by
  rw [select, select, List.filterMap_filter, List.filterMap_filter]
  refine congrArg (fun entry ↦ overlay [] (names.filterMap entry)) (funext fun name ↦ ?_)
  cases hlookup : fields.lookup name with
  | none => simp
  | some v => rw [h name (by rw [hlookup]; rfl)]

end RowProduct.Fields
