import TargetView.Cache

/-! # What a cache answers by itself

`Cache.fresh? key` is the value that a cache gives for a key without a fetch:
that of its record, if the record is valid.  For every operation there are two
facts: what it makes of the fresh value of its own key, and that it leaves the
records of all other keys alone (`SameBut`).
-/
namespace TargetView

/-- The value that a fetch brings, if any. -/
def Fetched.value? {ν : Type} : Fetched ν → Option ν
  | valid v => some v
  | invalid | remove => none

namespace CacheRecord

variable {ν : Type} (r : CacheRecord ν)

/-- The value of a valid record. -/
def fresh? : Option ν := if r.valid then some r.value else none

@[simp] theorem fresh?_new (v : ν) : (new v).fresh? = some v := rfl

@[simp] theorem fresh?_write (v : ν) : (r.write v).fresh? = some v := rfl

@[simp] theorem fresh?_read : r.read.fresh? = r.fresh? := rfl

@[simp] theorem fresh?_stale : r.stale.fresh? = none := rfl

@[simp] theorem fresh?_invalidate : r.invalidate.fresh? = none := rfl

end CacheRecord

namespace Cache

variable {κ ν : Type} [Ord κ] [Std.TransOrd κ]

/-- The value that is given without a fetch. -/
def fresh? (c : Cache κ ν) (key : κ) : Option ν := c.records[key]?.bind (·.fresh?)

/-- The cache after a read of a record. -/
def touch (c : Cache κ ν) (key : κ) : Cache κ ν := ⟨c.records.modify key (·.read)⟩

/-- The cache after some keys have been refreshed, one after the other. -/
def refreshed (c : Cache κ ν) (answers : List (κ × Fetched ν)) : Cache κ ν :=
  answers.foldl (fun c a => c.refresh a.1 a.2) c

/-- Two caches have the same records, that of one key left out. -/
def SameBut (key : κ) (c c' : Cache κ ν) : Prop :=
  ∀ k, k ≠ key → c'.records[k]? = c.records[k]?

theorem fresh?_congr {c c' : Cache κ ν} {key : κ} (h : c'.records[key]? = c.records[key]?) :
    c'.fresh? key = c.fresh? key := by
  rw [fresh?, fresh?, h]

theorem SameBut.fresh? {c c' : Cache κ ν} {key k : κ} (h : SameBut key c c') (hk : k ≠ key) :
    c'.fresh? k = c.fresh? k :=
  fresh?_congr (h k hk)

@[simp] theorem refreshed_nil (c : Cache κ ν) : c.refreshed [] = c := rfl

@[simp] theorem refreshed_cons (c : Cache κ ν) (key : κ) (fetched : Fetched ν)
    (answers : List (κ × Fetched ν)) :
    c.refreshed ((key, fetched) :: answers) = (c.refresh key fetched).refreshed answers := rfl

theorem fresh?_eq_none_iff {c : Cache κ ν} {key : κ} :
    c.fresh? key = none ↔ c.valid? key ≠ some true := by
  rw [fresh?, valid?]
  cases c.records[key]? with
  | none => simp
  | some r => simp [CacheRecord.fresh?]

@[simp] theorem fresh?_empty (key : κ) : (empty : Cache κ ν).fresh? key = none := by
  simp [fresh?, empty]

omit [Std.TransOrd κ] in
theorem compare_ne [Std.LawfulEqOrd κ] {key k : κ} (h : k ≠ key) : compare key k ≠ .eq :=
  fun he => h (Std.LawfulEqCmp.compare_eq_iff_eq.mp he).symm

variable (c : Cache κ ν) (key : κ)

/-! ### Records of other keys -/

section Others

variable [Std.LawfulEqOrd κ]

theorem sameBut_alter (f : Option (CacheRecord ν) → Option (CacheRecord ν)) :
    SameBut key c ⟨c.records.alter key f⟩ := by
  intro k hk
  rw [Std.ExtTreeMap.getElem?_alter, if_neg (compare_ne hk)]

theorem sameBut_modify (f : CacheRecord ν → CacheRecord ν) :
    SameBut key c ⟨c.records.modify key f⟩ := by
  intro k hk
  rw [Std.ExtTreeMap.getElem?_modify, if_neg (compare_ne hk)]

theorem sameBut_erase : SameBut key c ⟨c.records.erase key⟩ := by
  intro k hk
  rw [Std.ExtTreeMap.getElem?_erase, if_neg (compare_ne hk)]

theorem sameBut_settle (fetched : Fetched ν) : SameBut key c (c.settle key fetched) := by
  cases fetched with
  | valid v => exact sameBut_alter c key _
  | invalid => exact fun _ _ => rfl
  | remove => exact sameBut_erase c key

theorem sameBut_refresh (fetched : Fetched ν) : SameBut key c (c.refresh key fetched) := by
  cases fetched with
  | valid v => exact sameBut_modify c key _
  | invalid => exact sameBut_modify c key _
  | remove => exact sameBut_erase c key

/-- Refreshing leaves the records of all keys alone that are not asked about. -/
theorem records_refreshed (answers : List (κ × Fetched ν)) (h : key ∉ answers.map Prod.fst) :
    (c.refreshed answers).records[key]? = c.records[key]? := by
  induction answers generalizing c with
  | nil => rfl
  | cons a answers ih =>
    rw [List.map_cons, List.mem_cons, not_or] at h
    rw [refreshed_cons, ih _ h.2]
    exact sameBut_refresh c a.1 a.2 key h.1

end Others

/-! ### Fresh values -/

@[simp] theorem fresh?_write (v : ν) : (c.write key v).fresh? key = some v := by
  cases h : c.records[key]? <;> simp [fresh?, write, h]

@[simp] theorem fresh?_settle_valid (v : ν) : (c.settle key (.valid v)).fresh? key = some v := by
  cases h : c.records[key]? with
  | none => simp [fresh?, settle, h, CacheRecord.fresh?]
  | some r => simp [fresh?, settle, h]

@[simp] theorem fresh?_settle_remove : (c.settle key .remove).fresh? key = none := by
  simp [fresh?, settle]

@[simp] theorem fresh?_invalidate : (c.invalidate key).fresh? key = none := by
  cases h : c.records[key]? <;> simp [fresh?, invalidate, h]

@[simp] theorem fresh?_remove : (c.remove key).2.fresh? key = none := by
  simp [fresh?, remove]

/-- A refresh of a key that has a record makes it fresh exactly if it brings a
value. -/
theorem fresh?_refresh (fetched : Fetched ν) (h : key ∈ c.records) :
    (c.refresh key fetched).fresh? key = fetched.value? := by
  obtain ⟨r, hr⟩ := Option.isSome_iff_exists.mp (Std.ExtTreeMap.mem_iff_isSome_getElem?.mp h)
  cases fetched <;> simp [fresh?, refresh, hr, Fetched.value?]

section Bulk

variable [Std.LawfulEqOrd κ]

@[simp] theorem fresh?_invalidateAll (k : κ) : c.invalidateAll.fresh? k = none := by
  cases h : c.records[k]? <;> simp [fresh?, invalidateAll, h]

/-- A read makes no record stale and changes no value. -/
@[simp] theorem fresh?_touch (k : κ) : (c.touch key).fresh? k = c.fresh? k := by
  by_cases hk : k = key
  · subst hk
    cases h : c.records[k]? <;> simp [fresh?, touch, h]
  · exact (sameBut_modify c key _).fresh? hk

/-- What is said about a key decides what a refresh of many makes of it, if
every one of them is asked about once. -/
theorem fresh?_refreshed {answers : List (κ × Fetched ν)} {fetched : Fetched ν}
    (hnodup : (answers.map Prod.fst).Nodup) (hmem : (key, fetched) ∈ answers)
    (hkey : key ∈ c.records) : (c.refreshed answers).fresh? key = fetched.value? := by
  induction answers generalizing c with
  | nil => cases hmem
  | cons a answers ih =>
    obtain ⟨hnot, hrest⟩ := List.nodup_cons.mp hnodup
    rw [refreshed_cons]
    rcases List.mem_cons.mp hmem with rfl | hmem
    · rw [fresh?_congr (records_refreshed _ _ answers hnot)]
      exact fresh?_refresh c key fetched hkey
    · have hne : key ≠ a.1 := by
        rintro rfl
        exact hnot (List.mem_map.mpr ⟨_, hmem, rfl⟩)
      refine ih _ hrest hmem ?_
      rw [Std.ExtTreeMap.mem_iff_isSome_getElem?] at hkey ⊢
      rw [sameBut_refresh c a.1 a.2 key hne]
      exact hkey

end Bulk

/-! ### Reading -/

section Reading

variable {m : Type → Type} [Monad m] (fetch : κ → m (Fetched ν))

/-- A fresh value is given without a fetch. -/
theorem readOrFetch_of_fresh [Std.LawfulEqOrd κ] {v : ν} (h : c.fresh? key = some v) :
    c.readOrFetch key fetch = pure (some v, c.touch key) := by
  obtain ⟨r, hrec, hr⟩ := Option.bind_eq_some_iff.mp h
  obtain ⟨hvalid, rfl⟩ : r.valid = true ∧ r.value = v := by
    simpa [CacheRecord.fresh?] using hr
  have htouch : c.records.insert key r.read = c.records.modify key (·.read) := by
    refine Std.ExtTreeMap.ext_getElem? fun k => ?_
    rw [Std.ExtTreeMap.getElem?_insert, Std.ExtTreeMap.getElem?_modify, hrec]
    rfl
  rw [readOrFetch, hrec, Option.filter_some, if_pos hvalid, touch, ← htouch]

/-- Without a fresh value there is one fetch, and the cache settles what it
says. -/
theorem readOrFetch_of_not_fresh (h : c.fresh? key = none) :
    c.readOrFetch key fetch = (do
      let fetched ← fetch key
      return (fetched.value?, c.settle key fetched)) := by
  have hnone : c.records[key]?.filter (·.valid) = none := by
    rw [fresh?_eq_none_iff, valid?] at h
    cases hrec : c.records[key]? with
    | none => rfl
    | some r =>
      rw [hrec] at h
      rw [Option.filter_some, if_neg fun hv => h (congrArg some hv)]
  rw [readOrFetch, hnone]
  refine bind_congr fun fetched => ?_
  cases fetched <;> rfl

end Reading

end Cache
end TargetView
