import RowProduct.Record

namespace RowProduct

inductive Edit where
  | insert (name : String) (value : Value)
  | overlay (top : Fields)
  | select (names : List String)
  | discard (names : List String)

namespace Edit

def perform (r : Record) : Edit → Record
  | insert name value => r.insert name value
  | overlay top => r.overlay top
  | select names => r.select names
  | discard names => r.discard names

/-- The same on bare fields, which say nothing against a name that occurs twice. -/
def revise (fields : Fields) : Edit → Fields
  | insert name value => fields.insert name value
  | overlay top => fields.overlay top
  | select names => fields.select names
  | discard names =>
    if names.any fun name ↦ (fields.lookup name).isSome then Fields.overlay [] (fields.discard names) else fields

theorem fields_perform (r : Record) (e : Edit) : (e.perform r).fields = e.revise r.fields := by
  cases e with
  | insert name value => exact Record.fields_insert r name value
  | overlay top => exact Record.fields_overlay r top
  | select names => exact Record.fields_select r names
  | discard names =>
    have hcollect : Fields.overlay [] (r.fields.discard names) = r.fields.discard names :=
      @Fields.overlay_eq_append [] _ (Fields.nodup_discard r.nodup names)
    calc (r.discard names).fields
        = if names.any r.contains then r.fields.discard names else r.fields := apply_ite ..
      _ = revise r.fields (discard names) := by
        rw [revise, hcollect]
        rfl

theorem fields_foldl_perform (r : Record) (edits : List Edit) :
    (edits.foldl perform r).fields = edits.foldl revise r.fields := by
  induction edits generalizing r with
  | nil => rfl
  | cons e edits ih => rw [List.foldl_cons, List.foldl_cons, ih, fields_perform]

end Edit

namespace Record

/-- Operations on records do what they would do on bare fields, and no name comes to stand there twice. To lay
records over one another obeys these equations, the order of the columns included. -/
theorem overlay_algebra :
    (∀ (pairs : Fields) (edits : List Edit),
      (edits.foldl Edit.perform (ofList pairs)).fields = edits.foldl Edit.revise (Fields.overlay [] pairs) ∧
        (edits.foldl Edit.revise (Fields.overlay [] pairs)).names.Nodup) ∧
      ∀ (a b c : Record) (name : String) (value : Value) (pairs : Fields) (names : List String),
        (∅ : Record).overlay a.fields = a ∧ a.overlay (∅ : Record).fields = a ∧
        (a.overlay b.fields).overlay c.fields = a.overlay (b.overlay c.fields).fields ∧
        a.overlay a.fields = a ∧
        a.insert name value = a.overlay [(name, value)] ∧
        ofList pairs = pairs.foldl (fun r field ↦ r.insert field.1 field.2) ∅ ∧
        (a.overlay b.fields).discard names = (a.discard names).overlay (b.discard names).fields ∧
        a.discard names = ofList (a.fields.discard names) := by
  refine ⟨fun pairs edits ↦ ?_, fun a b c name value pairs names ↦ ?_⟩
  · have hfields := Edit.fields_foldl_perform (ofList pairs) edits
    exact ⟨hfields, hfields ▸ (edits.foldl Edit.perform (ofList pairs)).nodup⟩
  · refine ⟨empty_overlay a, rfl, (overlay_overlay a b c.fields).symm, overlay_self a, rfl, overlay_eq_foldl ∅ pairs,
      ?_, (ofList_discard a names).symm⟩
    rw [discard_overlay, fields_discard]

end Record

end RowProduct
