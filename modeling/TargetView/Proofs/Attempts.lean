import TargetView.Proofs.Reads
import TargetView.Proofs.Watching

/-! # Attempts at reads

A read that is not to be repeated is attempted until an attempt binds its name;
then it is marked as done (`Pass.attempt`).  Once it is done nothing happens any
more (`Pass.run_attempt_of_done`), and before that an attempt does what a read
that is to be repeated does (`Pass.run_attempt_again`).

What an attempt asks of memory shows in a watched pass: a visit is `Visit.Fair`
if it marks its read at most, and only if no memory read failed.  There is one
exception.  A chain ends where memory cannot be read, and what has been found by
then counts as the whole list; so the last read may have failed there, other than
that of a pointer to the start.

What a watched pass does at a node is its test, its visit and its effect.  If all nodes
of a tree keep a contract in these (`Watched.Obeys`), so does the whole pass
(`Watched.allows_watchTree`).
-/
namespace TargetView

open Contract

variable {τ α : Type}

namespace Statement

/-- Where a statement reads, if it does. -/
def source? : Statement → Option Source
  | .read r => some r.source
  | .readList r => some r.source
  | _ => none

/-- Whether the statement reads memory, and keeps what has been read. -/
def isOnce (statement : Statement) : Bool := statement.source?.any (·.once)

/-- Whether the statement reads a pointer to the elements first. -/
def isBased (statement : Statement) : Bool := statement.source?.any (·.based)

/-- Whether the statement reads elements that lead to each other. -/
def isChain : Statement → Bool
  | .readList r => r.next?.isSome
  | _ => false

/-- The statement that reads again and again. -/
def repeated : Statement → Statement
  | .read r => .read { r with source.once := false }
  | .readList r => .readList { r with source.once := false }
  | statement => statement

end Statement

namespace Pass

variable (S : Setting τ)

/-- What a statement does to read memory, if it does. -/
def fetchOf : Statement → Pass τ Bool
  | .read r => fetch S r
  | .readList r => fetchList S r
  | _ => pure false

/-- Reads memory, if the statement does and has not done so once and for all. -/
def attempt (id : Nat) (statement : Statement) : Pass τ Unit :=
  unlessDone id statement.isOnce (fetchOf S statement)

theorem fetchOf_repeated (statement : Statement) :
    fetchOf S statement.repeated = fetchOf S statement := by
  cases statement <;> rfl

theorem isOnce_repeated (statement : Statement) : statement.repeated.isOnce = false := by
  cases statement <;> rfl

theorem attempt_of_source? {statement : Statement} (h : statement.source? = none) (id : Nat) :
    attempt S id statement = pure () := by
  cases statement with
  | read | readList => cases h
  | group | var | «calc» | list | row | breakpoint => rfl

/-- The effect of a read is an attempt at it. -/
theorem effect_of_source? {statement : Statement} {source : Source}
    (h : statement.source? = some source) (id line : Nat) (below : Pass τ (List Row)) :
    effect S id line statement below = attempt S id statement >>= fun _ => below := by
  cases statement with
  | read | readList => rfl
  | group | var | «calc» | list | row | breakpoint => cases h

/-! ## Before and after a read is done -/

variable {S} {id : Nat} {statement : Statement} {s t : PassState τ}

/-- **What is done is not done again**: no memory is read and nothing is stored. -/
theorem run_attempt_of_done (honce : statement.isOnce = true)
    (hdone : s.memo.done.contains id = true) :
    (attempt S id statement).run.run s = (.ok (), s) := by
  unfold attempt unlessDone
  rw [run_bind_of_ok (run_isDone id), honce, hdone]
  rfl

/-- What is not done is marked by an attempt that succeeds, if it is not to be
repeated. -/
theorem run_attempt_of_fetched (h : (statement.isOnce && s.memo.done.contains id) = false)
    (hfetch : (fetchOf S statement).run.run s = (.ok true, t)) :
    (attempt S id statement).run.run s =
      (.ok (), if statement.isOnce then marked id t else t) :=
  run_unlessDone_of_fetched h hfetch

/-- It is not marked by an attempt that does not succeed. -/
theorem run_attempt_of_not_fetched (h : (statement.isOnce && s.memo.done.contains id) = false)
    {result : Except Abort Bool} (hfetch : (fetchOf S statement).run.run s = (result, t))
    (hresult : result ≠ .ok true) :
    (attempt S id statement).run.run s = (result.map fun _ => (), t) := by
  unfold attempt unlessDone
  rw [run_bind_of_ok (run_isDone id), h, if_neg Bool.false_ne_true]
  rcases result with e | _ | _
  · exact run_bind_of_error hfetch
  · exact run_bind_of_ok hfetch
  · exact absurd rfl hresult

/-- Without a mark an attempt leaves what the fetch does. -/
theorem state_attempt_of_not_marked (h : (statement.isOnce && s.memo.done.contains id) = false)
    {result : Except Abort Bool} (hfetch : (fetchOf S statement).run.run s = (result, t))
    (hmarks : ¬(statement.isOnce = true ∧ result = .ok true)) :
    ((attempt S id statement).run.run s).2 = t := by
  by_cases hresult : result = .ok true
  · subst hresult
    rw [run_attempt_of_fetched h hfetch, if_neg fun honce => hmarks ⟨honce, rfl⟩]
  · rw [run_attempt_of_not_fetched h hfetch hresult]

/-- **What is not done is attempted again**, like a read that is to be repeated;
only the mark makes a difference. -/
theorem run_attempt_again (h : s.memo.done.contains id = false) :
    ∃ done, (attempt S id statement).run.run s =
      (((attempt S id statement.repeated).run.run s).1,
        { ((attempt S id statement.repeated).run.run s).2 with memo.done := done }) := by
  have hfresh (once : Bool) : (once && s.memo.done.contains id) = false := by
    rw [h, Bool.and_false]
  rcases hfetch : (fetchOf S statement).run.run s with ⟨result, t⟩
  have hfetch' : (fetchOf S statement.repeated).run.run s = (result, t) := by
    rw [fetchOf_repeated, hfetch]
  by_cases hresult : result = .ok true
  · subst hresult
    rw [run_attempt_of_fetched (hfresh _) hfetch, run_attempt_of_fetched (hfresh _) hfetch',
      isOnce_repeated, if_neg Bool.false_ne_true]
    cases statement.isOnce with
    | true => exact ⟨t.memo.done.insert id, rfl⟩
    | false => exact ⟨t.memo.done, rfl⟩
  · rw [run_attempt_of_not_fetched (hfresh _) hfetch hresult,
      run_attempt_of_not_fetched (hfresh _) hfetch' hresult]
    exact ⟨t.memo.done, rfl⟩

end Pass

/-! ## What an attempt asks of memory -/

namespace Watched

/-- All memory reads of the latest visit have been answered. -/
def Answered (w : PassState (Watched τ)) : Prop :=
  ∀ v ∈ w.visits.head?, ∀ bytes? ∈ v.reads, bytes?.isSome = true

/-- All memory reads of the latest visit have been answered, but for the last one
perhaps. -/
def NearlyAnswered (w : PassState (Watched τ)) : Prop :=
  ∀ v ∈ w.visits.head?, ∀ bytes? ∈ v.reads.dropLast, bytes?.isSome = true

/-- The first memory read of the latest visit has been answered. -/
def Started (w : PassState (Watched τ)) : Prop :=
  ∀ v ∈ w.visits.head?, ∃ bytes, v.reads.head? = some (some bytes)

theorem Answered.nearly {w : PassState (Watched τ)} (h : Answered w) : NearlyAnswered w :=
  fun v hv bytes? hmem => h v hv bytes? (List.dropLast_subset _ hmem)

theorem Answered.started {w : PassState (Watched τ)} (h : Answered w)
    (hreads : ∀ v ∈ w.visits.head?, v.reads ≠ []) : Started w := by
  intro v hv
  obtain ⟨bytes?, rest, hlist⟩ := List.exists_cons_of_ne_nil (hreads v hv)
  obtain ⟨bytes, rfl⟩ :=
    Option.isSome_iff_exists.mp (h v hv bytes? (hlist ▸ List.mem_cons_self))
  exact ⟨bytes, by rw [hlist, List.head?_cons]⟩

/-- What has been answered first stays so. -/
theorem Started.of_noted {w w' : PassState (Watched τ)} (h : Started w) (hw : Noted w w') :
    Started w' := by
  obtain ⟨more, hmore⟩ := hw
  intro v' hv'
  rw [hmore, List.head?_modifyHead] at hv'
  obtain ⟨v, hv, rfl⟩ := Option.map_eq_some_iff.mp hv'
  obtain ⟨bytes, hbytes⟩ := h v hv
  refine ⟨bytes, ?_⟩
  rw [Visit.noting, List.head?_append, hbytes, Option.some_or]

/-- Memory is read for the latest visit, and no read is marked. -/
def trying : Contract Abort (PassState (Watched τ)) where
  Becomes w w' := Noted w w' ∧ w'.memo.done = w.memo.done
  Excuses _ _ := True
  refl _ := ⟨noted_of_visits_eq rfl, rfl⟩
  trans h h' := ⟨h.1.trans h'.1, h'.2.trans h.2⟩

/-- What becomes of a state in which all memory reads have been answered. -/
def Tries (x : Pass (Watched τ) α) (Q : PassState (Watched τ) → α → Prop) : Prop :=
  ∀ w, Answered w → trying.Keeps w x Q

variable {β : Type} {S : Setting τ} {x : Pass (Watched τ) α}
  {P : PassState (Watched τ) → α → Prop} {Q : PassState (Watched τ) → β → Prop}

theorem keeps_of_still (h : still.Allows x) (w : PassState (Watched τ)) :
    trying.Keeps w x fun w' _ => w'.visits = w.visits := by
  intro _
  obtain ⟨-, ⟨hvisits, hdone⟩, -⟩ := h w trivial
  exact ⟨trivial, ⟨noted_of_visits_eq hvisits, hdone⟩,
    ends_of_forall (fun _ => hvisits) fun _ => trivial⟩

theorem tries_of_still (h : still.Allows x) : Tries x fun w _ => Answered w := by
  intro w hw
  refine (keeps_of_still h w).imp fun w' _ hvisits => ?_
  rw [Answered, hvisits]
  exact hw

theorem Tries.bind {f : α → Pass (Watched τ) β} (hx : Tries x P)
    (hf : ∀ w a, P w a → trying.Keeps w (f a) Q) : Tries (x >>= f) Q :=
  fun w hw => (hx w hw).bind fun w' a _ ha => hf w' a ha

/-- What is known after a memory read. -/
def Given {β : Type} (w : PassState (Watched τ)) (a? : Option β) : Prop :=
  NearlyAnswered w ∧ (a?.isSome = true → Answered w ∧ Started w)

theorem visits_readMemory (address : UInt64) (size : Nat) (w : PassState (Watched τ)) :
    ∃ bytes? w', (Pass.readMemory S.watched address size).run.run w = (.ok bytes?, w') ∧
      w'.visits = w.visits.modifyHead (·.noting [bytes?]) ∧ w'.memo = w.memo :=
  ⟨_, _, rfl, rfl, rfl⟩

theorem tries_readMemory (address : UInt64) (size : Nat) :
    Tries (Pass.readMemory S.watched address size) Given := by
  intro w hw _
  obtain ⟨bytes?, w', hrun, hvisits, hmemo⟩ := visits_readMemory (S := S) address size w
  rw [hrun]
  have hlatest : ∀ v' ∈ w'.visits.head?, ∃ v ∈ w.visits.head?, v'.reads = v.reads ++ [bytes?] := by
    intro v' hv'
    rw [hvisits, List.head?_modifyHead] at hv'
    obtain ⟨v, hv, rfl⟩ := Option.map_eq_some_iff.mp hv'
    exact ⟨v, hv, rfl⟩
  refine ⟨trivial, ⟨⟨_, hvisits⟩, congrArg Memo.done hmemo⟩, ?_, fun hsome => ?_⟩
  · intro v' hv' bytes'? hmem
    obtain ⟨v, hv, hreads⟩ := hlatest v' hv'
    rw [hreads, List.dropLast_concat] at hmem
    exact hw v hv bytes'? hmem
  · have hw' : Answered w' := by
      intro v' hv' bytes'? hmem
      obtain ⟨v, hv, hreads⟩ := hlatest v' hv'
      rw [hreads] at hmem
      rcases List.mem_append.mp hmem with hmem | hmem
      · exact hw v hv bytes'? hmem
      · rw [List.mem_singleton.mp hmem]
        exact hsome
    refine ⟨hw', hw'.started fun v' hv' => ?_⟩
    obtain ⟨v, -, hreads⟩ := hlatest v' hv'
    rw [hreads]
    exact List.append_ne_nil_of_right_ne_nil _ (List.cons_ne_nil _ _)

theorem tries_readPointer (address : UInt64) :
    Tries (Pass.readPointer S.watched address) Given :=
  (tries_readMemory address S.watched.config.pointerSize).bind fun w bytes? h =>
    keeps_pure ⟨h.1, fun hsome => h.2 (by rwa [Option.isSome_map] at hsome)⟩

/-- What is known once it has been found out where a source starts. -/
def Located (source : Source) (w : PassState (Watched τ)) (address? : Option UInt64) : Prop :=
  address?.isSome = true → Answered w ∧ (source.based = true → Started w)

theorem tries_startAddress (source : Source) :
    Tries (Pass.startAddress S.watched source) (Located source) := by
  have hnone {w : PassState (Watched τ)} : trying.Keeps w
      (pure none : Pass (Watched τ) (Option UInt64)) (Located source) := keeps_pure nofun
  have hS := handles_still S
  refine (tries_of_still (Pass.allows_symbolAddress? hS _)).bind fun w base? hw => ?_
  cases base? with
  | none => exact hnone
  | some base =>
    refine (tries_of_still (Pass.allows_offset? hS _) w hw).bind fun w' offset? _ hw' => ?_
    cases offset? with
    | none => exact hnone
    | some offset =>
      dsimp only
      cases hbased : source.based with
      | true =>
        refine (tries_readPointer _ w' hw').imp fun u address? h hsome => ?_
        obtain ⟨hu, hstarted⟩ := h.2 hsome
        exact ⟨hu, fun _ => hstarted⟩
      | false =>
        refine keeps_pure fun _ => ⟨hw', fun h => ?_⟩
        rw [hbased] at h
        cases h

theorem tries_followLinks (type : ElementType) (order : ByteOrder) (next : Int64) (count : Nat) :
    ∀ (found : Array Value) (address : UInt64),
      Tries (Pass.followLinks S.watched type order next found count address)
        fun w _ => NearlyAnswered w := by
  induction count with
  | zero => exact fun found _ w hw => keeps_pure hw.nearly
  | succ count ih =>
    intro found address
    rw [Pass.followLinks]
    split
    · exact fun w hw => keeps_pure hw.nearly
    · refine (tries_readMemory _ _).bind fun w bytes? hread => ?_
      obtain ⟨hnearly, hw⟩ := hread
      cases bytes? with
      | none => exact keeps_pure hnearly
      | some bytes =>
        refine (tries_readPointer _ w (hw rfl).1).bind fun w' link? _ hlink => ?_
        obtain ⟨hnearly', hw'⟩ := hlink
        cases link? with
        | none => exact keeps_pure hnearly'
        | some link => exact ih _ link w' (hw' rfl).1

/-- How memory reads have been answered if it succeeds to read from where a source
starts. -/
def Finishes (statement : Statement) (w : PassState (Watched τ)) (success : Bool) : Prop :=
  success = true → NearlyAnswered w ∧ (statement.isChain = false → Answered w)

/-- How the memory reads of an attempt have been answered if it succeeds. -/
def Succeeds (statement : Statement) (w : PassState (Watched τ)) (success : Bool) : Prop :=
  success = true → NearlyAnswered w ∧ (statement.isChain = false → Answered w) ∧
    (statement.isBased = true → Started w)

theorem keeps_failed {statement : Statement} {w : PassState (Watched τ)} :
    trying.Keeps w (pure false) (Finishes statement) :=
  keeps_pure nofun

/-- What has been read is stored, and with it the attempt succeeds. -/
theorem keeps_stored {statement : Statement} {store : Pass (Watched τ) Unit}
    (hstore : still.Allows store) {w : PassState (Watched τ)} (hw : Answered w) :
    trying.Keeps w (do store; return true) (Finishes statement) :=
  (tries_of_still hstore w hw).bind fun _ _ _ h => keeps_pure fun _ => ⟨h.nearly, fun _ => h⟩

/-- What reads from where its source starts, if that can be found out. -/
theorem tries_located {statement : Statement} {source : Source}
    (hsource : statement.source? = some source) {fetch : Option UInt64 → Pass (Watched τ) Bool}
    (hnone : fetch none = pure false)
    (hsome : ∀ address, Tries (fetch (some address)) (Finishes statement)) :
    Tries (Pass.startAddress S.watched source >>= fetch) (Succeeds statement) := by
  refine (tries_startAddress source).bind fun w address? hw => ?_
  cases address? with
  | none =>
    rw [hnone]
    exact keeps_pure nofun
  | some address =>
    obtain ⟨hanswered, hstarted⟩ := hw rfl
    -- What is read later comes behind the pointer, which therefore stays the first.
    refine (hsome address w hanswered).becoming.imp fun w' success ⟨hbecomes, hfinishes⟩ => ?_
    intro hsuccess
    obtain ⟨hnearly, hchain⟩ := hfinishes hsuccess
    refine ⟨hnearly, hchain, fun hbased => (hstarted ?_).of_noted hbecomes.1⟩
    rwa [Statement.isBased, hsource, Option.any_some] at hbased

theorem tries_fetch (r : Read) : Tries (Pass.fetch S.watched r) (Succeeds (.read r)) := by
  have hS := handles_still S
  refine tries_located rfl rfl fun address => ?_
  refine (tries_of_still (Pass.allows_intOr hS 1 r.count?)).bind fun w requested hw => ?_
  refine (tries_readMemory _ _ w hw).bind fun u bytes? _ ⟨_, hu⟩ => ?_
  cases bytes? with
  | none => exact keeps_failed
  | some bytes =>
    dsimp only
    split
    · exact keeps_stored (Pass.allows_bind hS _ _) (hu rfl).1
    · exact keeps_stored (Pass.allows_bindArray hS _ _) (hu rfl).1

theorem tries_fetchList (r : ListRead) :
    Tries (Pass.fetchList S.watched r) (Succeeds (.readList r)) := by
  have hS := handles_still S
  refine tries_located rfl rfl fun start => ?_
  refine (tries_of_still (Pass.allows_listCount hS r)).bind fun w count hw => ?_
  cases hnext : r.next? with
  | some next =>
    refine (tries_of_still (Pass.allows_int? hS next) w hw).bind fun u next? _ hu => ?_
    cases next? with
    | none => exact keeps_failed
    | some next =>
      -- The chain may have ended at memory that cannot be read.
      refine (tries_followLinks _ _ _ _ _ _ u hu).bind fun u' items _ hnearly => ?_
      have hbound := keeps_of_still (Pass.allows_bindArray hS r.name items) u'
      refine hbound.bind fun v _ _ hvisits => keeps_pure fun _ => ⟨?_, fun hchain => ?_⟩
      · rw [NearlyAnswered, hvisits]
        exact hnearly
      · rw [Statement.isChain, hnext] at hchain
        cases hchain
  | none =>
    refine (tries_readMemory _ _ w hw).bind fun u bytes? _ ⟨_, hu⟩ => ?_
    cases bytes? with
    | none => exact keeps_failed
    | some bytes => exact keeps_stored (Pass.allows_bindArray hS _ _) (hu rfl).1

theorem tries_fetchOf (statement : Statement) :
    Tries (Pass.fetchOf S.watched statement) (Succeeds statement) := by
  cases statement with
  | read r => exact tries_fetch r
  | readList r => exact tries_fetchList r
  | group | var | «calc» | list | row | breakpoint => exact fun _ _ => keeps_pure nofun

theorem couples_fetchOf (statement : Statement) :
    coupling.Couples (Pass.fetchOf S.watched statement) (Pass.fetchOf S statement) := by
  cases statement with
  | read r => exact Pass.couples_fetch (link_sound S) r
  | readList r => exact Pass.couples_fetchList (link_sound S) r
  | group | var | «calc» | list | row | breakpoint => exact Coupling.couples_pure false

theorem couples_attempt (id : Nat) (statement : Statement) :
    coupling.Couples (Pass.attempt S.watched id statement) (Pass.attempt S id statement) :=
  Pass.couples_unlessDone (link_sound S) rfl statement.isOnce (couples_fetchOf statement)

end Watched

/-! ## Fair visits -/

namespace Visit

/-- What the statement does to read memory, and the state that this leaves. -/
def effect (v : Visit τ) : Except Abort Unit × PassState τ :=
  (Pass.attempt v.setting v.id v.statement).run.run v.state

/-- The elements are fetched, and the name of the read is bound to them. -/
def Fetches (v : Visit τ) : Prop :=
  ((Pass.fetchOf v.setting v.statement).run.run v.state).1 = .ok true

/-- The read of the visit has been done before. -/
def IsDone (v : Visit τ) : Prop := v.id ∈ v.state.memo.done

/-- The visit marks its read. -/
def Marks (v : Visit τ) : Prop := ¬v.IsDone ∧ v.id ∈ v.effect.2.memo.done

instance (v : Visit τ) : Decidable v.IsDone :=
  inferInstanceAs (Decidable (v.id ∈ v.state.memo.done))

instance (v : Visit τ) : Decidable v.Fetches :=
  match h : ((Pass.fetchOf v.setting v.statement).run.run v.state).1 with
  | .ok true => isTrue h
  | .ok false => isFalse fun h' => nomatch h.symm.trans h'
  | .error _ => isFalse fun h' => nomatch h.symm.trans h'

instance (v : Visit τ) : Decidable v.Marks :=
  inferInstanceAs (Decidable (¬v.IsDone ∧ v.id ∈ v.effect.2.memo.done))

/-- What has been asked of memory has been answered. -/
structure Complete (v : Visit τ) : Prop where
  /-- Every memory read but the last one has been answered. -/
  nearly : ∀ bytes? ∈ v.reads.dropLast, bytes?.isSome = true
  /-- The last one has been answered too, other than in a chain. -/
  all : v.statement.isChain = false → ∀ bytes? ∈ v.reads, bytes?.isSome = true
  /-- If the elements are behind a pointer, this pointer has been read first. -/
  start : v.statement.isBased = true → ∃ bytes, v.reads.head? = some (some bytes)

/-- What a visit asks of memory and what it marks belong together. -/
structure Fair (v : Visit τ) : Prop where
  /-- No memory is read for what has been done. -/
  idle : v.statement.isOnce = true → v.IsDone → v.reads = []
  /-- No read but that of the visit is marked. -/
  own : v.effect.2.memo.done = v.state.memo.done ∨
    v.effect.2.memo.done = v.state.memo.done.insert v.id
  /-- What is not to be repeated is marked when it has been fetched. -/
  marks_iff : v.Marks ↔ v.statement.isOnce = true ∧ ¬v.IsDone ∧ v.Fetches
  complete : v.Marks → v.Complete

theorem fair_of_unmarked {v : Visit τ} (h : v.effect.2.memo.done = v.state.memo.done)
    (hidle : v.statement.isOnce = true → v.IsDone → v.reads = [])
    (hfails : ¬(v.statement.isOnce = true ∧ ¬v.IsDone ∧ v.Fetches)) : v.Fair := by
  have hmarks : ¬v.Marks := by
    rintro ⟨hfresh, hmarked⟩
    rw [h] at hmarked
    exact hfresh hmarked
  exact ⟨hidle, .inl h, iff_of_false hmarks hfails, fun hm => absurd hm hmarks⟩

theorem fair_of_marked {v : Visit τ} (h : v.effect.2.memo.done = v.state.memo.done.insert v.id)
    (honce : v.statement.isOnce = true) (hfresh : ¬v.IsDone) (hfetches : v.Fetches)
    (hcomplete : v.Complete) : v.Fair := by
  have hmarks : v.Marks := by
    refine ⟨hfresh, ?_⟩
    rw [h]
    exact Std.ExtTreeSet.mem_insert_self
  exact ⟨fun _ hdone => absurd hdone hfresh, .inr h,
    iff_of_true hmarks ⟨honce, hfresh, hfetches⟩, fun _ => hcomplete⟩

end Visit

namespace Watched

variable {S : Setting τ}

/-- A fetch for a visit that has just begun changes only what is answered to it. -/
theorem exists_of_tries {x : Pass (Watched τ) α} {Q : PassState (Watched τ) → α → Prop}
    (hx : Tries x Q) {w : PassState (Watched τ)} {v : Visit τ} {rest : List (Visit τ)}
    (hw : w.visits = v :: rest) (hreads : v.reads = []) :
    ∃ reads, (x.run.run w).2.visits = { v with reads } :: rest ∧
      (x.run.run w).2.memo.done = w.memo.done ∧
      ∀ a, (x.run.run w).1 = .ok a → Q (x.run.run w).2 a := by
  have hanswered : Answered w := by
    intro v' hv bytes? hmem
    rw [hw] at hv
    obtain rfl := Option.some.inj hv
    rw [hreads] at hmem
    cases hmem
  obtain ⟨-, ⟨⟨reads, hvisits⟩, hdone⟩, hends⟩ := hx w hanswered trivial
  rw [hw, List.modifyHead_cons, Visit.noting, hreads, List.nil_append] at hvisits
  refine ⟨reads, hvisits, hdone, fun a ha => ?_⟩
  rw [ha] at hends
  exact hends

/-- **An attempt leaves the visit fair** that has just begun. -/
theorem fair_attempt (id : Nat) (statement : Statement) {w : PassState (Watched τ)}
    {rest : List (Visit τ)} (hw : w.visits = ⟨S, id, statement, w.unwatched, []⟩ :: rest) :
    ∃ reads, let v : Visit τ := ⟨S, id, statement, w.unwatched, reads⟩
      v.Fair ∧ ((Pass.attempt S.watched id statement).run.run w).2.visits = v :: rest ∧
      ((Pass.attempt S.watched id statement).run.run w).2.memo.done = v.effect.2.memo.done := by
  have heffect (reads : List (Option (List UInt8))) :
      (⟨S, id, statement, w.unwatched, reads⟩ : Visit τ).effect.2.memo.done =
        ((Pass.attempt S.watched id statement).run.run w).2.memo.done := by
    rw [Visit.effect, run_unwatched (couples_attempt (S := S) id statement) w]
    rfl
  by_cases hidle : statement.isOnce = true ∧ id ∈ w.memo.done
  · -- Done before: nothing is read, so the visit stays as it has begun.
    obtain ⟨honce, hdone⟩ := hidle
    have hsame := heffect []
    rw [Pass.run_attempt_of_done honce (Std.ExtTreeSet.contains_iff_mem.mpr hdone)] at hsame ⊢
    exact ⟨[], Visit.fair_of_unmarked hsame (fun _ _ => rfl) fun h => h.2.1 hdone, hw, hsame.symm⟩
  · -- The fetch marks nothing itself; it depends on its success whether the attempt does.
    have hfresh : (statement.isOnce && w.memo.done.contains id) = false := by
      rw [← Bool.not_eq_true, Bool.and_eq_true, Std.ExtTreeSet.contains_iff_mem]
      exact hidle
    obtain ⟨reads, hvisits, hmemo, hends⟩ :=
      exists_of_tries (tries_fetchOf (S := S) statement) hw rfl
    have hsame := heffect reads
    have hfetches := run_unwatched (couples_fetchOf (S := S) statement) w
    rcases hfetch : (Pass.fetchOf S.watched statement).run.run w with ⟨result, t⟩
    rw [hfetch] at hvisits hmemo hends hfetches
    have hresult := congrArg Prod.fst hfetches
    refine ⟨reads, ?_⟩
    by_cases hmarks : statement.isOnce = true ∧ result = .ok true
    · obtain ⟨honce, rfl⟩ := hmarks
      rw [Pass.run_attempt_of_fetched hfresh hfetch, if_pos honce] at hsame ⊢
      obtain ⟨hnearly, hchain, hbased⟩ := hends true rfl rfl
      have hlatest : (⟨S, id, statement, w.unwatched, reads⟩ : Visit τ) ∈ t.visits.head? := by
        rw [hvisits]
        rfl
      refine ⟨Visit.fair_of_marked (hsame.trans (congrArg (·.insert id) hmemo)) honce
        (fun hdone => hidle ⟨honce, hdone⟩) hresult ?_, hvisits, hsame.symm⟩
      exact ⟨hnearly _ hlatest, fun h => hchain h _ hlatest, fun h => hbased h _ hlatest⟩
    · have hrun : ((Pass.attempt S.watched id statement).run.run w).2 = t :=
        Pass.state_attempt_of_not_marked hfresh hfetch hmarks
      rw [hrun] at hsame ⊢
      exact ⟨Visit.fair_of_unmarked (hsame.trans hmemo) (fun h hdone => absurd ⟨h, hdone⟩ hidle)
        fun h => hmarks ⟨h.1, hresult.symm.trans h.2.2⟩, hvisits, hsame.symm⟩

/-- **A visit is added for every statement that takes effect**, with the state that
its attempt begins with, and the attempt leaves what it would leave unwatched. -/
theorem run_visit (S : Setting τ) (id : Nat) (statement : Statement)
    (w : PassState (Watched τ)) :
    ∃ reads, let v : Visit τ := ⟨S, id, statement, w.unwatched, reads⟩
      v.Fair ∧ ∃ w', ((do
        Pass.notice S id statement
        Pass.attempt S.watched id statement).run.run w).2 = w' ∧
          w'.visits = v :: w.visits ∧ w'.unwatched = v.effect.2 := by
  -- The attempt starts with the new visit in front, to which nothing has been answered.
  let w₀ : PassState (Watched τ) :=
    w.unwatched.watched (⟨S, id, statement, w.unwatched, []⟩ :: w.visits)
  obtain ⟨reads, hfair, hvisits, -⟩ :=
    fair_attempt id statement (show w₀.visits = ⟨S, id, statement, w₀.unwatched, []⟩ :: w.visits
      from rfl)
  have hrun : (do
      Pass.notice S id statement
      Pass.attempt S.watched id statement).run.run w =
        (Pass.attempt S.watched id statement).run.run w₀ := run_bind_of_ok rfl
  have hsame := congrArg Prod.snd (run_unwatched (couples_attempt (S := S) id statement) w₀)
  exact ⟨reads, hfair, _, congrArg Prod.snd hrun, hvisits, hsame.symm⟩

/-! ## Watched trees -/

/-- What a watched pass does at a node keeps a contract, if what it does below the node
does. -/
structure Obeys (S : Setting τ) (C : Contract Abort (PassState (Watched τ))) (n : StatementNode) :
    Prop where
  checkCancelled : C.Allows (Pass.checkCancelled S.watched)
  condition : C.Allows (Pass.condition S.watched n.condition?)
  visit : C.Allows (do
    Pass.notice S n.id n.statement
    Pass.attempt S.watched n.id n.statement)
  /-- Only reads have an attempt before their effect. -/
  effect : n.statement.source? = none → ∀ below : Pass (Watched τ) (List Row), C.Allows below →
    C.Allows (Pass.effect S.watched n.id n.line n.statement below)

variable {C : Contract Abort (PassState (Watched τ))}

mutual
/-- A watched node keeps a contract if the nodes from it downwards do. -/
theorem allows_watchNode (S : Setting τ) : ∀ n : StatementNode,
    (∀ m ∈ n.preorder, Obeys S C m) → C.Allows (Pass.watchNode S n)
  | ⟨id, statement, line, condition?, children⟩, hnodes => by
    rw [StatementNode.preorder, List.forall_mem_cons] at hnodes
    obtain ⟨hn, hchildren⟩ := hnodes
    have hbelow := allows_watchNodes S children hchildren
    have hvisit := hn.visit
    dsimp only at hvisit
    rw [Pass.watchNode]
    refine hn.checkCancelled.bind fun _ => hn.condition.bind fun runs => ?_
    split
    · cases hsource : statement.source? with
      | none =>
        rw [Pass.attempt_of_source? _ hsource, bind_pure_unit] at hvisit
        exact hvisit.bind fun _ => hn.effect hsource _ hbelow
      | some source =>
        rw [Pass.effect_of_source? _ hsource, ← bind_assoc]
        exact hvisit.bind fun _ => hbelow
    · exact allows_pure _

theorem allows_watchNodes (S : Setting τ) : ∀ ns : List StatementNode,
    (∀ m ∈ StatementNode.preorderAll ns, Obeys S C m) → C.Allows (Pass.watchNodes S ns)
  | [], _ => by
    rw [Pass.watchNodes]
    exact allows_pure []
  | n :: rest, hnodes => by
    rw [StatementNode.preorderAll, List.forall_mem_append] at hnodes
    rw [Pass.watchNodes]
    exact (allows_watchNode S n hnodes.1).bind fun _ =>
      (allows_watchNodes S rest hnodes.2).map _
end

/-- **A watched pass keeps what it keeps at each node.** -/
theorem allows_watchTree (S : Setting τ) (tree : StatementTree)
    (h : ∀ n ∈ tree.preorder, Obeys S C n) : C.Allows (Pass.watchTree S tree) := by
  obtain ⟨root?⟩ := tree
  cases root? with
  | none => exact allows_pure []
  | some root => exact allows_watchNode S root h

end Watched
end TargetView
