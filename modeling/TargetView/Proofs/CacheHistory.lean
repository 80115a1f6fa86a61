import Mathlib.Data.List.Induction
import TargetView.Proofs.CacheRecords

/-! # Histories of a cache

A `CacheHistory` is what comes of a sequence of operations on a new cache.  Of
every operation it keeps what was asked meanwhile, and what was said, as a
`CacheEvent`; so which value was stored last for a key, and whether anything
made it stale since (`StoredLast`), is read off the events and not off the
records.

What an operation does to the fresh value of a key it says by its event
(`fresh?_of_stores`, `fresh?_of_voids`, `fresh?_of_not_touches`).  Hence the
fresh value of a key is at any time the value stored last for it
(`fresh?_iff_storedLast`), and what is given without a fetch is never out of
date (`coherent_of_operations`).
-/
namespace TargetView

/-- An operation on a cache.  A fetch and a refresh ask a source, which has a
state of its own. -/
inductive CacheOp (σ κ ν : Type) where
  | write (key : κ) (v : ν)
  | readOrFetch (key : κ) (fetch : κ → StateM σ (Fetched ν))
  | invalidate (key : κ)
  | invalidateAll
  | refreshAll (order : KeyOrder κ) (fetch : κ → StateM σ (Fetched ν))
  | remove (key : κ)
  | clear

/-- The key that an operation is aimed at, if it is a single one. -/
def CacheOp.target? {σ κ ν : Type} : CacheOp σ κ ν → Option κ
  | write key _ | readOrFetch key _ | invalidate key | remove key => some key
  | invalidateAll | refreshAll .. | clear => none

/-- What an operation came to: the keys that the source was asked about, each
with what it said, and the value that was given back. -/
structure CacheEvent (σ κ ν : Type) where
  op : CacheOp σ κ ν
  asked : List (κ × Fetched ν) := []
  given? : Option ν := none

namespace CacheEvent

variable {σ κ ν : Type} (e : CacheEvent σ κ ν)

/-- A value was stored for a key: by a write, or since the source said so. -/
def Stores (key : κ) (v : ν) : Prop :=
  (match e.op with
    | .write k w => k = key ∧ w = v
    | _ => False) ∨
  (key, .valid v) ∈ e.asked

/-- What was stored for a key does not count any longer. -/
def Voids (key : κ) : Prop :=
  match e.op with
  | .invalidate k | .remove k => k = key
  | .invalidateAll | .clear => True
  | .refreshAll .. => (key, .invalid) ∈ e.asked ∨ (key, .remove) ∈ e.asked
  | .write .. | .readOrFetch .. => False

/-- A value for a key was stored or voided. -/
def Touches (key : κ) : Prop := (∃ v, e.Stores key v) ∨ e.Voids key

end CacheEvent

/-- A value was stored for a key, and nothing after that touched the key. -/
def StoredLast {σ κ ν : Type} (events : List (CacheEvent σ κ ν)) (key : κ) (v : ν) : Prop :=
  ∃ before e since, events = before ++ e :: since ∧ e.Stores key v ∧
    ∀ e' ∈ since, ¬e'.Touches key

/-- A cache with its source, and the events so far. -/
structure CacheHistory (σ κ ν : Type) [Ord κ] where
  cache : Cache κ ν := {}
  source : σ
  events : List (CacheEvent σ κ ν) := []

variable {σ κ ν : Type}

namespace CacheOp

variable [Ord κ] [Std.TransOrd κ]

/-- Asks the source about a key and writes down what it says. -/
def asking (fetch : κ → StateM σ (Fetched ν)) (key : κ) :
    StateM (σ × List (κ × Fetched ν)) (Fetched ν) :=
  fun (source, asked) =>
    let (fetched, source) := (fetch key).run source
    (fetched, source, asked ++ [(key, fetched)])

/-- Performs an operation on a cache with a source. -/
def perform (op : CacheOp σ κ ν) (c : Cache κ ν) (source : σ) :
    CacheEvent σ κ ν × Cache κ ν × σ :=
  match op with
  | .write key v => ({ op }, c.write key v, source)
  | .readOrFetch key fetch =>
    let ((given?, c), source, asked) := (c.readOrFetch key (asking fetch)).run (source, [])
    ({ op, asked, given? }, c, source)
  | .invalidate key => ({ op }, c.invalidate key, source)
  | .invalidateAll => ({ op }, c.invalidateAll, source)
  | .refreshAll order fetch =>
    let (c, source, asked) := (c.refreshAll order (asking fetch)).run (source, [])
    ({ op, asked }, c, source)
  | .remove key =>
    let (given?, c) := c.remove key
    ({ op, given? }, c, source)
  | .clear => ({ op }, c.clear, source)

end CacheOp

namespace CacheHistory

variable [Ord κ] [Std.TransOrd κ]

/-- The history with one more operation. -/
def next (h : CacheHistory σ κ ν) (op : CacheOp σ κ ν) : CacheHistory σ κ ν :=
  let (e, cache, source) := op.perform h.cache h.source
  ⟨cache, source, h.events ++ [e]⟩

/-- The history of some operations on a new cache. -/
def ofOperations (source : σ) (ops : List (CacheOp σ κ ν)) : CacheHistory σ κ ν :=
  ops.foldl next { source }

end CacheHistory

namespace CacheOp

variable [Ord κ] [Std.TransOrd κ] (c : Cache κ ν) (source : σ)

/-! ## What an operation asks -/

theorem perform_readOrFetch_of_fresh [Std.LawfulEqOrd κ] {key : κ} {v : ν}
    (fetch : κ → StateM σ (Fetched ν)) (h : c.fresh? key = some v) :
    (readOrFetch key fetch).perform c source =
      ({ op := .readOrFetch key fetch, given? := some v }, c.touch key, source) := by
  simp only [perform, c.readOrFetch_of_fresh key _ h]
  rfl

theorem perform_readOrFetch_of_not_fresh {key : κ} (fetch : κ → StateM σ (Fetched ν))
    (h : c.fresh? key = none) :
    (readOrFetch key fetch).perform c source =
      let (fetched, source') := (fetch key).run source
      ({ op := .readOrFetch key fetch, asked := [(key, fetched)], given? := fetched.value? },
        c.settle key fetched, source') := by
  simp only [perform, c.readOrFetch_of_not_fresh key _ h]
  rfl

/-- Refreshing some keys one after the other asks about each of them, and
stores what is said. -/
theorem foldlM_refresh (fetch : κ → StateM σ (Fetched ν)) (keys : List κ) :
    ∀ (c : Cache κ ν) (source : σ) (asked : List (κ × Fetched ν)),
      ∃ answers source', answers.map Prod.fst = keys ∧
        (keys.foldlM (fun (c : Cache κ ν) key => return c.refresh key (← asking fetch key)) c).run
            (source, asked) =
          (c.refreshed answers, source', asked ++ answers) := by
  induction keys with
  | nil =>
    intro c source asked
    exact ⟨[], source, rfl, by rw [List.append_nil]; rfl⟩
  | cons key keys ih =>
    intro c source asked
    rcases hf : (fetch key).run source with ⟨fetched, source₁⟩
    obtain ⟨answers, source', hkeys, hrun⟩ :=
      ih (c.refresh key fetched) source₁ (asked ++ [(key, fetched)])
    refine ⟨(key, fetched) :: answers, source', congrArg (key :: ·) hkeys, ?_⟩
    have hask : (asking fetch key).run (source, asked) =
        (fetched, source₁, asked ++ [(key, fetched)]) := by
      change (let (fetched, source) := (fetch key).run source
        ((fetched, source, asked ++ [(key, fetched)]) : Fetched ν × σ × _)) = _
      rw [hf]
    rw [List.append_assoc] at hrun
    rw [List.foldlM_cons, bind_assoc, StateT.run_bind, hask]
    exact hrun

theorem perform_refreshAll (order : KeyOrder κ) (fetch : κ → StateM σ (Fetched ν)) :
    ∃ answers source', (answers.map Prod.fst).Perm c.records.keys ∧
      (refreshAll order fetch).perform c source =
        ({ op := .refreshAll order fetch, asked := answers }, c.refreshed answers, source') := by
  obtain ⟨answers, source', hkeys, hrun⟩ :=
    foldlM_refresh fetch (order.arrange c.records.keys) c source []
  refine ⟨answers, source', hkeys ▸ order.perm _, ?_⟩
  simp only [perform, Cache.refreshAll, hrun]
  rfl

/-! ## What an operation does to a key -/

section Effects

variable [Std.LawfulEqOrd κ] {c source} {op : CacheOp σ κ ν} {key : κ}

theorem fresh?_of_stores {v : ν} (h : (op.perform c source).1.Stores key v) :
    (op.perform c source).2.1.fresh? key = some v := by
  cases op with
  | write k w =>
    rcases h with ⟨rfl, rfl⟩ | h
    · exact c.fresh?_write _ _
    · cases h
  | readOrFetch k fetch =>
    cases hk : c.fresh? k with
    | some w =>
      rw [perform_readOrFetch_of_fresh c source fetch hk] at h
      rcases h with h | h <;> cases h
    | none =>
      rw [perform_readOrFetch_of_not_fresh c source fetch hk] at h ⊢
      rcases hf : (fetch k).run source with ⟨fetched, source'⟩
      rw [hf] at h
      rcases h with h | h
      · cases h
      · cases List.mem_singleton.mp h
        exact c.fresh?_settle_valid _ _
  | refreshAll order fetch =>
    obtain ⟨answers, source', hkeys, hrun⟩ := perform_refreshAll c source order fetch
    rw [hrun] at h ⊢
    rcases h with h | h
    · cases h
    · have hkey : key ∈ answers.map Prod.fst := List.mem_map.mpr ⟨_, h, rfl⟩
      rw [hkeys.mem_iff, Std.ExtTreeMap.mem_keys] at hkey
      exact c.fresh?_refreshed key (hkeys.nodup_iff.mpr Std.ExtTreeMap.nodup_keys) h hkey
  | invalidate k | invalidateAll | remove k | clear =>
    rcases h with h | h <;> cases h

theorem fresh?_of_voids (h : (op.perform c source).1.Voids key) :
    (op.perform c source).2.1.fresh? key = none := by
  cases op with
  | write k w => cases h
  | readOrFetch k fetch => cases h
  | invalidate k =>
    obtain rfl : k = key := h
    exact c.fresh?_invalidate _
  | invalidateAll => exact c.fresh?_invalidateAll key
  | refreshAll order fetch =>
    obtain ⟨answers, source', hkeys, hrun⟩ := perform_refreshAll c source order fetch
    rw [hrun] at h ⊢
    have hfresh (fetched : Fetched ν) (hmem : (key, fetched) ∈ answers) :
        (c.refreshed answers).fresh? key = fetched.value? := by
      have hkey : key ∈ answers.map Prod.fst := List.mem_map.mpr ⟨_, hmem, rfl⟩
      rw [hkeys.mem_iff, Std.ExtTreeMap.mem_keys] at hkey
      exact c.fresh?_refreshed key (hkeys.nodup_iff.mpr Std.ExtTreeMap.nodup_keys) hmem hkey
    rcases h with h | h
    · exact hfresh _ h
    · exact hfresh _ h
  | remove k =>
    obtain rfl : k = key := h
    exact c.fresh?_remove _
  | clear => exact Cache.fresh?_empty key

/-- An operation that is aimed at one key leaves the records of all others
alone. -/
theorem sameBut_of_target {k : κ} (h : op.target? = some k) :
    Cache.SameBut k c (op.perform c source).2.1 := by
  cases op with
  | write key v =>
    cases h
    exact c.sameBut_alter k _
  | readOrFetch key fetch =>
    cases h
    cases hk : c.fresh? k with
    | some w =>
      rw [perform_readOrFetch_of_fresh c source fetch hk]
      exact c.sameBut_modify k _
    | none =>
      rw [perform_readOrFetch_of_not_fresh c source fetch hk]
      exact c.sameBut_settle k _
  | invalidate key =>
    cases h
    exact c.sameBut_modify k _
  | remove key =>
    cases h
    exact c.sameBut_erase k
  | invalidateAll | refreshAll order fetch | clear => cases h

theorem fresh?_of_not_touches (h : ¬(op.perform c source).1.Touches key) :
    (op.perform c source).2.1.fresh? key = c.fresh? key := by
  have hstores : ∀ v, ¬(op.perform c source).1.Stores key v := fun v hv => h (.inl ⟨v, hv⟩)
  have hvoids : ¬(op.perform c source).1.Voids key := fun hv => h (.inr hv)
  -- An operation that is aimed at another key does not matter.
  by_cases ht : ∃ k, op.target? = some k ∧ key ≠ k
  · obtain ⟨k, hk, hne⟩ := ht
    exact (sameBut_of_target hk).fresh? hne
  have hself : ∀ k, op.target? = some k → k = key := by
    intro k hk
    exact Classical.byContradiction fun hne => ht ⟨k, hk, Ne.symm hne⟩
  cases op with
  | write k w => exact absurd (.inl ⟨hself k rfl, rfl⟩) (hstores w)
  | readOrFetch k fetch =>
    obtain rfl := hself k rfl
    cases hk : c.fresh? k with
    | some w =>
      rw [perform_readOrFetch_of_fresh c source fetch hk, c.fresh?_touch, hk]
    | none =>
      rw [perform_readOrFetch_of_not_fresh c source fetch hk] at hstores ⊢
      rcases hf : (fetch k).run source with ⟨fetched, source'⟩
      rw [hf] at hstores
      cases fetched with
      | valid v => exact absurd (.inr (List.mem_singleton_self _)) (hstores v)
      | invalid => exact hk
      | remove => exact c.fresh?_settle_remove k
  | invalidate k => exact absurd (hself k rfl) hvoids
  | invalidateAll => exact absurd trivial hvoids
  | refreshAll order fetch =>
    obtain ⟨answers, source', hkeys, hrun⟩ := perform_refreshAll c source order fetch
    rw [hrun] at hstores hvoids ⊢
    refine Cache.fresh?_congr (c.records_refreshed key answers fun hasked => ?_)
    obtain ⟨⟨k, fetched⟩, hmem, rfl⟩ := List.mem_map.mp hasked
    cases fetched with
    | valid v => exact hstores v (.inr hmem)
    | invalid => exact hvoids (.inl hmem)
    | remove => exact hvoids (.inr hmem)
  | remove k => exact absurd (hself k rfl) hvoids
  | clear => exact absurd trivial hvoids

end Effects

end CacheOp

/-! ## Histories -/

theorem not_storedLast_nil (key : κ) (v : ν) :
    ¬StoredLast ([] : List (CacheEvent σ κ ν)) key v := by
  rintro ⟨before, e, since, h, -⟩
  cases before <;> cases h

/-- The value stored last is that of the last event, if it stored one, and
otherwise the one from before, if the event did not touch the key. -/
theorem storedLast_append {events : List (CacheEvent σ κ ν)} {e : CacheEvent σ κ ν} {key : κ}
    {v : ν} :
    StoredLast (events ++ [e]) key v ↔
      e.Stores key v ∨ ¬e.Touches key ∧ StoredLast events key v := by
  constructor
  · rintro ⟨before, e', since, heq, hstores, hsince⟩
    rcases List.eq_nil_or_concat since with rfl | ⟨since, last, rfl⟩
    · obtain ⟨-, hlast⟩ := List.append_inj' heq rfl
      cases hlast
      exact .inl hstores
    · rw [List.concat_eq_append, ← List.cons_append, ← List.append_assoc] at heq
      obtain ⟨rfl, hlast⟩ := List.append_inj' heq rfl
      cases hlast
      refine .inr ⟨hsince e (by simp), before, e', since, rfl, hstores, fun x hx => ?_⟩
      exact hsince x (by simp [hx])
  · rintro (h | ⟨hnot, before, e', since, rfl, hstores, hsince⟩)
    · exact ⟨events, e, [], rfl, h, nofun⟩
    · refine ⟨before, e', since ++ [e], by simp, hstores, fun x hx => ?_⟩
      rcases List.mem_append.mp hx with hx | hx
      · exact hsince x hx
      · rwa [List.mem_singleton.mp hx]

namespace CacheHistory

variable [Ord κ] [Std.TransOrd κ]

theorem ofOperations_append (source : σ) (ops : List (CacheOp σ κ ν)) (op : CacheOp σ κ ν) :
    ofOperations source (ops ++ [op]) = (ofOperations source ops).next op := by
  rw [ofOperations, List.foldl_append]
  rfl

variable [Std.LawfulEqOrd κ]

/-- At any time the fresh value of a key is the one stored last for it. -/
theorem fresh?_iff_storedLast (source : σ) (ops : List (CacheOp σ κ ν)) (key : κ) (v : ν) :
    (ofOperations source ops).cache.fresh? key = some v ↔
      StoredLast (ofOperations source ops).events key v := by
  induction ops using List.reverseRecOn generalizing v with
  | nil =>
    refine ⟨fun h => ?_, fun h => absurd h (not_storedLast_nil key v)⟩
    rw [show (ofOperations source []).cache.fresh? key = none from Cache.fresh?_empty key] at h
    cases h
  | append_singleton ops op ih =>
    rw [ofOperations_append]
    generalize ofOperations source ops = h at ih
    change (op.perform h.cache h.source).2.1.fresh? key = some v ↔
      StoredLast (h.events ++ [(op.perform h.cache h.source).1]) key v
    rw [storedLast_append]
    by_cases ht : (op.perform h.cache h.source).1.Touches key
    · have hleft : ¬(¬(op.perform h.cache h.source).1.Touches key ∧ StoredLast h.events key v) :=
        fun hn => hn.1 ht
      rw [or_iff_left hleft]
      refine ⟨fun hfresh => ?_, CacheOp.fresh?_of_stores⟩
      rcases ht with ⟨w, hw⟩ | hv
      · rw [CacheOp.fresh?_of_stores hw] at hfresh
        exact Option.some.inj hfresh ▸ hw
      · rw [CacheOp.fresh?_of_voids hv] at hfresh
        cases hfresh
    · have hstores : ¬(op.perform h.cache h.source).1.Stores key v := fun hs => ht (.inl ⟨v, hs⟩)
      rw [CacheOp.fresh?_of_not_touches ht, ih, or_iff_right hstores, and_iff_right ht]

/-- What can be relied on at some point of a history, whatever is done next. -/
structure Coherent (h : CacheHistory σ κ ν) : Prop where
  /-- Access counts stay within their range. -/
  counts : ∀ key n, h.cache.count? key = some n → n ≤ 100
  /-- A read asks once about a key without a valid record, and otherwise not. -/
  asks : ∀ key fetch, (CacheOp.perform (.readOrFetch key fetch) h.cache h.source).1.asked.map
      Prod.fst = if h.cache.valid? key = some true then [] else [key]
  /-- What a read gives without asking was stored last and has been left alone
  since. -/
  current : ∀ key fetch, (CacheOp.perform (.readOrFetch key fetch) h.cache h.source).1.asked = [] →
    ∃ v, (CacheOp.perform (.readOrFetch key fetch) h.cache h.source).1.given? = some v ∧
      StoredLast h.events key v
  /-- A read that learns nothing leaves the whole cache as it is. -/
  untouched : ∀ key fetch,
    (key, .invalid) ∈ (CacheOp.perform (.readOrFetch key fetch) h.cache h.source).1.asked →
    (CacheOp.perform (.readOrFetch key fetch) h.cache h.source).2.1 = h.cache
  /-- Refreshing asks about every key that has a record, once, in whatever order. -/
  refreshes : ∀ order fetch,
    ((CacheOp.perform (.refreshAll order fetch) h.cache h.source).1.asked.map Prod.fst).Nodup ∧
    ∀ key, key ∈ (CacheOp.perform (.refreshAll order fetch) h.cache h.source).1.asked.map
      Prod.fst ↔ h.cache.contains key
  /-- What is aimed at one key leaves the records of all others alone. -/
  others : ∀ (op : CacheOp σ κ ν) (key : κ), op.target? = some key →
    Cache.SameBut key h.cache (op.perform h.cache h.source).2.1

/-- **A cache is coherent throughout its history.**  After any operations on a
new cache, a value is given without a fetch exactly if the record is valid, and
then it is the one that was stored last and that nothing has voided since. -/
theorem coherent_of_operations (source : σ) (ops : List (CacheOp σ κ ν)) :
    Coherent (ofOperations source ops) where
  counts key n hn := by
    obtain ⟨r, -, rfl⟩ := Option.map_eq_some_iff.mp hn
    exact r.count.val_le
  asks key fetch := by
    generalize ofOperations source ops = h
    cases hf : h.cache.fresh? key with
    | some v =>
      have hvalid : h.cache.valid? key = some true := by
        refine Classical.byContradiction fun hn => ?_
        rw [Cache.fresh?_eq_none_iff.mpr hn] at hf
        cases hf
      rw [CacheOp.perform_readOrFetch_of_fresh _ _ fetch hf, if_pos hvalid]
      rfl
    | none =>
      rw [CacheOp.perform_readOrFetch_of_not_fresh _ _ fetch hf,
        if_neg (Cache.fresh?_eq_none_iff.mp hf)]
      rfl
  current key fetch hasked := by
    cases hf : (ofOperations source ops).cache.fresh? key with
    | some v =>
      rw [CacheOp.perform_readOrFetch_of_fresh _ _ fetch hf]
      exact ⟨v, rfl, (fresh?_iff_storedLast source ops key v).mp hf⟩
    | none =>
      rw [CacheOp.perform_readOrFetch_of_not_fresh _ _ fetch hf] at hasked
      cases hasked
  untouched key fetch hmem := by
    generalize ofOperations source ops = h at hmem
    cases hf : h.cache.fresh? key with
    | some v =>
      rw [CacheOp.perform_readOrFetch_of_fresh _ _ fetch hf] at hmem
      cases hmem
    | none =>
      rw [CacheOp.perform_readOrFetch_of_not_fresh _ _ fetch hf] at hmem ⊢
      rcases hrun : (fetch key).run h.source with ⟨fetched, source'⟩
      rw [hrun] at hmem
      cases List.mem_singleton.mp hmem
      rfl
  refreshes order fetch := by
    generalize ofOperations source ops = h
    obtain ⟨answers, source', hkeys, hrun⟩ :=
      CacheOp.perform_refreshAll h.cache h.source order fetch
    rw [hrun]
    refine ⟨hkeys.nodup_iff.mpr Std.ExtTreeMap.nodup_keys, fun key => ?_⟩
    rw [hkeys.mem_iff, Std.ExtTreeMap.mem_keys]
    exact Std.ExtTreeMap.mem_iff_contains
  others op key ht := CacheOp.sameBut_of_target ht

/-- Two records are refreshed, the last one first, of which only one is found: it is
read without asking, and was stored last by the refresh. -/
theorem coherent_of_operations_refresh :
    let ops : List (CacheOp Nat Nat String) :=
      [.write 1 "on", .write 2 "off",
        .refreshAll ⟨List.reverse, List.reverse_perm⟩
          fun key => return if key = 1 then .valid "up" else .invalid]
    Std.TransOrd Nat ∧ Std.LawfulEqOrd Nat ∧ Coherent (ofOperations 0 ops) ∧
      (ofOperations 0 ops).cache.valid? 1 = some true ∧
      (ofOperations 0 ops).cache.valid? 2 = some false ∧
      StoredLast (ofOperations 0 ops).events 1 "up" := by
  intro ops
  have h := coherent_of_operations 0 ops
  have hone : (ofOperations 0 ops).cache.valid? 1 = some true := by decide +kernel
  refine ⟨inferInstance, inferInstance, h, hone, by decide +kernel, ?_⟩
  have hasked : (CacheOp.perform (.readOrFetch 1 fun _ => pure .remove)
      (ofOperations 0 ops).cache (ofOperations 0 ops).source).1.asked = [] := by
    have := h.asks 1 fun _ => pure .remove
    rw [if_pos hone] at this
    exact List.map_eq_nil_iff.mp this
  have hgiven : (CacheOp.perform (.readOrFetch 1 fun _ => pure .remove)
      (ofOperations 0 ops).cache (ofOperations 0 ops).source).1.given? = some "up" := by
    decide +kernel
  obtain ⟨v, hv, hstored⟩ := h.current 1 _ hasked
  obtain rfl : "up" = v := Option.some.inj (hgiven.symm.trans hv)
  exact hstored

end CacheHistory
end TargetView
