import RowProduct.Proofs.Checkpoint
import RowProduct.Proofs.Rounding

namespace RowProduct

open Traversal Feed

namespace Number

section

variable {a b : Number}

theorem agrees_of_signed {m n : Int} (ha : a.signed? = some m) (hb : b.signed? = some n) :
    a.agrees b = (m == n) := by
  rw [agrees, ha, hb]

theorem agrees_of_unsigned (h : a.signed? = none ∨ b.signed? = none) {m n : Nat} (ha : a.unsigned? = some m)
    (hb : b.unsigned? = some n) : a.agrees b = (m == n) := by
  rw [agrees, ha, hb]
  split
  · next hm hn => simp [hm, hn] at h
  · rfl

theorem agrees_of_neither (h : a.signed? = none ∨ b.signed? = none) (h' : a.unsigned? = none ∨ b.unsigned? = none) :
    a.agrees b = a.toBinary64.same b.toBinary64 := by
  rw [agrees]
  split
  · next hm hn => simp [hm, hn] at h
  · split
    · next hm hn => simp [hm, hn] at h'
    · rfl

end

theorem agrees_double_left (x : Binary64) (b : Number) : (double x).agrees b = x.same b.toBinary64 :=
  agrees_of_neither (.inl rfl) (.inl rfl)

theorem agrees_double_right (a : Number) (y : Binary64) : a.agrees (.double y) = a.toBinary64.same y :=
  agrees_of_neither (.inr rfl) (.inr rfl)

/-- Neither the signed nor the unsigned words hold a negative integer and one above the signed words, so these
two are compared as doubles. -/
theorem agrees_of_signs {m n : Whole} (hm : m.val < 0) (hn : (Whole.wordCount / 2 : Int) ≤ n.val) :
    (whole m).agrees (.whole n) = (Binary64.ofInt m.val).same (.ofInt n.val) ∧
      (whole n).agrees (.whole m) = (Binary64.ofInt n.val).same (.ofInt m.val) := by
  have hsigned : (whole n).signed? = none := if_neg (by omega)
  have hunsigned : (whole m).unsigned? = none := if_neg (by omega)
  exact ⟨agrees_of_neither (.inr hsigned) (.inl hunsigned), agrees_of_neither (.inl hsigned) (.inr hunsigned)⟩

theorem agrees_whole {m n : Whole} : (whole m).agrees (.whole n) ↔ m.val = n.val := by
  by_cases hsigned : m.val < (Whole.wordCount / 2 : Int) ∧ n.val < (Whole.wordCount / 2 : Int)
  · have hm : (whole m).signed? = some m.val := if_pos hsigned.1
    have hn : (whole n).signed? = some n.val := if_pos hsigned.2
    rw [agrees_of_signed hm hn, beq_iff_eq]
  · by_cases hunsigned : 0 ≤ m.val ∧ 0 ≤ n.val
    · have hnone : (whole m).signed? = none ∨ (whole n).signed? = none :=
        (not_and_or.1 hsigned).imp (fun h ↦ if_neg h) fun h ↦ if_neg h
      have hm : (whole m).unsigned? = some m.val.toNat := if_pos hunsigned.1
      have hn : (whole n).unsigned? = some n.val.toNat := if_pos hunsigned.2
      rw [agrees_of_unsigned hnone hm hn, beq_iff_eq]
      omega
    · -- The signs differ, and rounding keeps the sign of an integer.
      have hne : m.val ≠ n.val := by omega
      by_cases hm : m.val < 0
      · rw [(agrees_of_signs hm (by omega)).1]
        exact iff_of_false (Binary64.not_same_ofInt hm (by omega)) hne
      · have hn : n.val < 0 := by omega
        rw [(agrees_of_signs hn (by omega)).2, Binary64.same_comm]
        exact iff_of_false (Binary64.not_same_ofInt hn (by omega)) hne

theorem agrees_comm (a b : Number) : a.agrees b = b.agrees a := by
  cases b with
  | double y => rw [agrees_double_left, agrees_double_right, Binary64.same_comm]
  | whole n =>
    cases a with
    | double x => rw [agrees_double_left, agrees_double_right, Binary64.same_comm]
    | whole m => rw [Bool.eq_iff_iff, agrees_whole, agrees_whole, eq_comm]

theorem agrees_of_same {a b : Number} (h : a.same b) : a.agrees b := by
  cases a with
  | double x =>
    cases b with
    | double y => exact h
    | whole n => cases h
  | whole m =>
    cases b with
    | double y => cases h
    | whole n => exact agrees_whole.2 (beq_iff_eq.1 h)

theorem agrees_refl (a : Number) : a.agrees a := by
  cases a with
  | double x => exact x.same_refl
  | whole m => exact agrees_whole.2 rfl

theorem same_toBinary64 {a b : Number} (h : a.agrees b) : a.toBinary64.same b.toBinary64 := by
  cases b with
  | double y => rwa [agrees_double_right] at h
  | whole n =>
    cases a with
    | double x => rwa [agrees_double_left] at h
    | whole m =>
      rw [toBinary64, toBinary64, agrees_whole.1 h]
      exact Binary64.same_refl _

/-- A double between two different integers, neither of them below `2 ^ 53`. -/
inductive Blurs : Number → Number → Number → Prop
  | mk {x : Binary64} {m n : Whole} : m.val ≠ n.val → 2 * Binary64.binade ≤ m.val.natAbs →
      2 * Binary64.binade ≤ n.val.natAbs → Blurs (.double x) (.whole m) (.whole n)

theorem agrees_trans_iff {a b c : Number} (hab : a.agrees b) (hbc : b.agrees c) :
    a.agrees c ↔ ¬ b.Blurs a c := by
  have hac : a.toBinary64.same c.toBinary64 := Binary64.same_trans (same_toBinary64 hab) (same_toBinary64 hbc)
  cases a with
  | double x =>
    rw [agrees_double_left]
    exact iff_of_true hac nofun
  | whole m =>
    cases c with
    | double y =>
      rw [agrees_double_right]
      exact iff_of_true hac nofun
    | whole n =>
      cases b with
      | whole k => exact iff_of_true (agrees_whole.2 ((agrees_whole.1 hab).trans (agrees_whole.1 hbc))) nofun
      | double x =>
        rw [agrees_whole]
        refine ⟨fun h hblurs ↦ ?_, fun h ↦ ?_⟩
        · cases hblurs with
          | mk hne _ _ => exact hne h
        · by_contra hne
          refine h (.mk hne ?_ ?_)
          · by_contra hm
            exact hne (Binary64.eq_of_same_ofInt (Nat.lt_of_not_le hm) hac)
          · by_contra hn
            rw [Binary64.same_comm] at hac
            exact hne (Binary64.eq_of_same_ofInt (Nat.lt_of_not_le hn) hac).symm

end Number

namespace Value

def isNumber : Value → Bool
  | .number _ => true
  | _ => false

theorem agrees_iff {a b : Value} : a.agrees b ↔
    (∃ m n, a = .number m ∧ b = .number n ∧ m.agrees n) ∨ (a = b ∧ a.isScalar ∧ ¬ a.isNumber) := by
  cases a <;> cases b <;> simp [agrees, isScalar, same, isNumber]

theorem agrees_symm {a b : Value} (h : a.agrees b) : b.agrees a := by
  rw [agrees_iff] at h ⊢
  rcases h with ⟨m, n, rfl, rfl, h⟩ | ⟨rfl, h⟩
  · exact .inl ⟨n, m, rfl, rfl, by rwa [Number.agrees_comm]⟩
  · exact .inr ⟨rfl, h⟩

theorem isScalar_of_agrees {a b : Value} (h : a.agrees b) : a.isScalar := by
  rcases agrees_iff.1 h with ⟨m, n, rfl, -, -⟩ | ⟨-, hscalar, -⟩
  · rfl
  · exact hscalar

theorem same_iff_eq {a : Value} (hscalar : a.isScalar) (hnumber : ¬ a.isNumber) (b : Value) :
    a.same b ↔ a = b := by
  cases a with
  | number n => exact absurd rfl hnumber
  | array items => cases hscalar
  | object fields => cases hscalar
  | _ => cases b <;> simp [same]

theorem agrees_of_same {a b : Value} (ha : a.isScalar) (h : a.same b) : a.agrees b := by
  by_cases hnumber : a.isNumber
  · cases a with
    | number m =>
      cases b with
      | number n =>
        rw [same] at h
        exact agrees_iff.2 (.inl ⟨m, n, rfl, rfl, Number.agrees_of_same h⟩)
      | _ => cases h
    | _ => cases hnumber
  · exact agrees_iff.2 (.inr ⟨(same_iff_eq ha hnumber b).1 h, ha, hnumber⟩)

theorem agrees_refl {a : Value} (ha : a.isScalar) : a.agrees a := by
  rw [agrees_iff]
  cases a with
  | number n => exact .inl ⟨n, n, rfl, rfl, n.agrees_refl⟩
  | array items => cases ha
  | object fields => cases ha
  | _ => exact .inr ⟨rfl, ha, nofun⟩

theorem agrees_iff_eq {a : Value} (hnumber : ¬ a.isNumber) (b : Value) : a.agrees b ↔ a = b ∧ a.isScalar := by
  rw [agrees_iff]
  constructor
  · rintro (⟨m, n, rfl, -, -⟩ | ⟨rfl, hscalar, -⟩)
    · exact absurd rfl hnumber
    · exact ⟨rfl, hscalar⟩
  · rintro ⟨rfl, hscalar⟩
    exact .inr ⟨rfl, hscalar, hnumber⟩

/-- The equality of joins is symmetric. It matches scalars alone, each of them with itself and with what is
strictly equal to it, and a scalar that is no number with nothing else. Integers match when they are the same, and
this is so as well where no word holds both and they are compared as doubles. -/
theorem agrees_of_scalars (a b : Value) :
    a.agrees b = b.agrees a ∧
    (¬ (a.isScalar ∧ b.isScalar) → a.agrees b = false) ∧
    (a.isScalar → a.agrees a) ∧
    (a.isScalar → b.isScalar → a.same b → a.agrees b) ∧
    (a.isScalar → b.isScalar → ¬ a.isNumber → ¬ b.isNumber → a.agrees b → a.same b) ∧
    (¬ a.isNumber → b.isNumber → a.agrees b = false) ∧
    ∀ m n : Whole, ((number (.whole m)).agrees (.number (.whole n)) ↔ m.val = n.val) ∧
      (m.val < 0 → (Whole.wordCount / 2 : Int) ≤ n.val →
        (number (.whole m)).agrees (.number (.whole n)) = (Binary64.ofInt m.val).same (.ofInt n.val)) := by
  refine ⟨?_, fun h ↦ ?_, agrees_refl, fun ha _ h ↦ agrees_of_same ha h, fun ha _ hnumber _ h ↦ ?_,
    fun ha hb ↦ ?_, fun m n ↦ ⟨Number.agrees_whole, fun hm hn ↦ (Number.agrees_of_signs hm hn).1⟩⟩
  · rw [Bool.eq_iff_iff]
    exact ⟨agrees_symm, agrees_symm⟩
  · rw [← Bool.not_eq_true]
    exact fun hab ↦ h ⟨isScalar_of_agrees hab, isScalar_of_agrees (agrees_symm hab)⟩
  · rw [same_iff_eq ha hnumber]
    exact ((agrees_iff_eq hnumber b).1 h).1
  · rw [← Bool.not_eq_true, agrees_iff_eq ha]
    rintro ⟨rfl, -⟩
    exact ha hb

def Blurs (b a c : Value) : Prop :=
  ∃ k m n : Number, b = .number k ∧ a = .number m ∧ c = .number n ∧ k.Blurs m n

theorem agrees_trans_iff {a b c : Value} (hab : a.agrees b) (hbc : b.agrees c) : a.agrees c ↔ ¬ b.Blurs a c := by
  rcases agrees_iff.1 hab with ⟨m, k, rfl, rfl, hmk⟩ | ⟨rfl, -, hnumber⟩
  · rcases agrees_iff.1 hbc with ⟨_, n, hk, rfl, hkn⟩ | ⟨-, -, hnumber⟩
    · cases hk
      have h : m.agrees n ↔ ¬ k.Blurs m n := Number.agrees_trans_iff hmk hkn
      simpa [Blurs, agrees_iff, isNumber] using h
    · exact absurd rfl hnumber
  · refine iff_of_true hbc ?_
    rintro ⟨k, -, -, rfl, -, -, -⟩
    exact hnumber rfl

end Value

theorem sharesColumn_iff {name : String} {scope : Scope} {entry : Fields} :
    (Step.sharesColumn name scope entry).value ↔
      ∃ v w, scope.get? name = some v ∧ entry.lookup name = some w ∧ v.agrees w := by
  simp only [Step.sharesColumn, pure]
  split <;> simp_all

theorem ok_mem_join {entries : List Value} {name : String} {row row' : Row} {scope scope' : Scope}
    (h : .ok (row', scope') ∈ (Step.join entries name).outcomes row scope) :
    ∃ entry v w, .object entry ∈ entries ∧ scope.get? name = some v ∧ entry.lookup name = some w ∧ v.agrees w ∧
      row' = row.overlay entry ∧ scope' = scope.overlay entry := by
  obtain ⟨entry, hentry, htest, hrow, hscope⟩ := ok_mem_mergeOutcomes h
  obtain ⟨v, w, hv, hw, hvw⟩ := sharesColumn_iff.1 htest
  exact ⟨entry, v, w, hentry, hv, hw, hvw, hrow, hscope⟩

theorem ok_mem_join_chain {as bs cs : List Value} {name : String} {row row' : Row} {scope scope' : Scope}
    (hscope : scope.get? name = none) (hentries : ∀ entry : Fields, .object entry ∈ as ++ bs → entry.names.Nodup)
    (h : .ok (row', scope') ∈ outcomes [.forEach as, .join bs name, .join cs name] row scope) :
    ∃ a b c v w x, .object a ∈ as ∧ .object b ∈ bs ∧ .object c ∈ cs ∧
      row' = ((row.overlay a).overlay b).overlay c ∧
      a.lookup name = some v ∧ b.lookup name = some w ∧ c.lookup name = some x ∧ v.agrees w ∧ w.agrees x := by
  obtain ⟨row₁, scope₁, has, h⟩ := ok_mem_andThen h
  obtain ⟨row₂, scope₂, hbs, h⟩ := ok_mem_andThen h
  obtain ⟨row₃, scope₃, hcs, h⟩ := ok_mem_andThen h
  cases List.mem_singleton.1 h
  obtain ⟨a, ha, -, rfl, rfl⟩ := ok_mem_mergeOutcomes has
  obtain ⟨b, v, w, hb, hv, hw, hvw, rfl, rfl⟩ := ok_mem_join hbs
  obtain ⟨c, w', x, hc, hw', hx, hwx, rfl, rfl⟩ := ok_mem_join hcs
  have hva : a.lookup name = some v := by
    rwa [Record.get?_overlay, hscope, Option.or_none,
      Fields.lookup_reverse (hentries a (List.mem_append_left _ ha))] at hv
  -- The second join looks at the value that the match of the first one has left in the scope.
  have hbw := Record.get?_overlay_of_lookup (scope.overlay a) (hentries b (List.mem_append_right _ hb)) hw
  cases hw'.symm.trans hbw
  exact ⟨a, b, c, v, w, x, ha, hb, hc, rfl, hva, hw, hx, hvw, hwx⟩

/-- Matches are transitive but for a double between different integers that round to it. Every row of a chain of
joins on one column comes from entries whose neighbours match, and the outer ones match as well but for the same
exception. -/
theorem join_chain_agrees (as bs cs : List Value) (name : String) (row : Row) (scope : Scope) :
    (∀ a b c : Value, a.agrees b → b.agrees c → (a.agrees c ↔ ¬ b.Blurs a c)) ∧
    (scope.contains name = false → (∀ entry : Fields, .object entry ∈ as ++ bs → entry.names.Nodup) →
      let steps : List (Step Empty) := [.forEach as, .join bs name, .join cs name]
      ∀ n r, (enumerate row scope steps).given n = some (.ok r) →
        ∃ a b c v w x, .object a ∈ as ∧ .object b ∈ bs ∧ .object c ∈ cs ∧
          r = ((row.overlay a).overlay b).overlay c ∧
          a.lookup name = some v ∧ b.lookup name = some w ∧ c.lookup name = some x ∧
          v.agrees w ∧ w.agrees x ∧ (v.agrees x ↔ ¬ w.Blurs v x)) := by
  refine ⟨fun a b c ↦ Value.agrees_trans_iff, fun hscope hentries n r hr ↦ ?_⟩
  obtain ⟨scope', hbranch⟩ := given_eq_ok_iff.1 hr
  have hout := mem_of_mem_upTo (List.mem_of_getElem? hbranch)
  have hnone : scope.get? name = none := Option.not_isSome_iff_eq_none.1 (by simpa [Record.contains] using hscope)
  obtain ⟨a, b, c, v, w, x, ha, hb, hc, hrow, hv, hw, hx, hvw, hwx⟩ := ok_mem_join_chain hnone hentries hout
  exact ⟨a, b, c, v, w, x, ha, hb, hc, hrow, hv, hw, hx, hvw, hwx, Value.agrees_trans_iff hvw hwx⟩

/-- A chain of joins from `2 ^ 53 + 1` to `2 ^ 53`, by way of the double that both of them round to. -/
theorem joined_across_rounding :
    let a : Value := .int 9007199254740993
    let b : Value := .number (.double (.ofInt 9007199254740992))
    let c : Value := .int 9007199254740992
    let steps : List (Step Empty) :=
      [.forEach [.object [("k", a)]], .join [.object [("k", b)]] "k", .join [.object [("k", c)]] "k"]
    a.agrees b ∧ b.agrees c ∧ ¬ a.agrees c ∧ (product steps).value = .ok [.ofList [("k", c)]] := by
  intro a b c steps
  exact ⟨by decide +kernel, by decide +kernel, by decide +kernel, rfl⟩

end RowProduct
