import TargetView.Proofs.CacheRecords
import TargetView.Proofs.Execution
import TargetView.Proofs.Recording

/-! # One snapshot of the registers

Within a pass every register has one value: that of its first successful fetch
(`PassEvent.snapshot?`).  A record of events is faithful (`Faithful`) if a
register is fetched only as long as it has no value, and what is given for it
is its value; if it has none, the target has just been asked in vain.

A recorded pass does what the pass itself does, and its record is faithful
(`execute_recorded`).  The invariant behind this is `Recorded.Tracks`: the
cache of registers holds the values of the record, and nothing from before,
since all of it was made stale when the pass started.
-/
namespace TargetView

namespace PassEvent

/-- The word that an event fetches for a register. -/
def word? (name : String) : PassEvent → Option UInt64
  | fetched n bits? => if n = name then bits? else none
  | _ => none

/-- The word of a register: that of its first successful fetch. -/
def snapshot? (events : List PassEvent) (name : String) : Option UInt64 :=
  events.findSome? (·.word? name)

/-- An event is as it should be, given those before it. -/
def Permitted (before : List PassEvent) : PassEvent → Prop
  | fetched name _ => snapshot? before name = none
  | given name v? => v? = (snapshot? before name).map RegisterCache.ofWord ∧
    (v? = none → [fetched name none] <:+ before)
  | _ => True

/-- Each event is as it should be. -/
def Faithful (events : List PassEvent) : Prop :=
  ∀ before e, before ++ [e] <+: events → Permitted before e

/-- The event is not about registers. -/
def IsAside : PassEvent → Prop
  | fetched .. | given .. => False
  | _ => True

variable {events before after : List PassEvent} {e : PassEvent} {name : String} {bits : UInt64}

theorem permitted_of_isAside (h : e.IsAside) : Permitted before e := by
  cases e with
  | fetched | given => exact h.elim
  | cleared | declared | read | located | measured | written => trivial

theorem word?_of_isAside (h : e.IsAside) : e.word? name = none := by
  cases e with
  | fetched => exact h.elim
  | given | cleared | declared | read | located | measured | written => rfl

theorem eq_fetched_of_word? (h : e.word? name = some bits) : e = fetched name (some bits) := by
  cases e with
  | fetched n bits? =>
    by_cases hn : n = name
    · rw [word?, if_pos hn] at h
      rw [hn, h]
    · rw [word?, if_neg hn] at h
      cases h
  | given | cleared | declared | read | located | measured | written => cases h

theorem snapshot?_append (events : List PassEvent) (e : PassEvent) (name : String) :
    snapshot? (events ++ [e]) name = (snapshot? events name).or (e.word? name) := by
  rw [snapshot?, List.findSome?_append, List.findSome?_singleton, snapshot?]

theorem snapshot?_append_of_isAside (h : e.IsAside) (name : String) :
    snapshot? (events ++ [e]) name = snapshot? events name := by
  rw [snapshot?_append, word?_of_isAside h, Option.or_none]

theorem snapshot?_given (events : List PassEvent) (name : String) (v? : Option Value)
    (k : String) : snapshot? (events ++ [given name v?]) k = snapshot? events k := by
  rw [snapshot?_append, show (given name v?).word? k = none from rfl, Option.or_none]

theorem snapshot?_fetched (h : snapshot? events name = none) (bits? : Option UInt64)
    (k : String) : snapshot? (events ++ [fetched name bits?]) k =
      if name = k then bits? else snapshot? events k := by
  rw [snapshot?_append, word?]
  by_cases hk : name = k
  · rw [if_pos hk, if_pos hk, ← hk, h, Option.none_or]
  · rw [if_neg hk, if_neg hk, Option.or_none]

/-- A word that is fetched before everything else stays. -/
theorem snapshot?_of_fetched (hbefore : snapshot? before name = none) (after : List PassEvent) :
    snapshot? (before ++ fetched name (some bits) :: after) name = some bits := by
  rw [snapshot?, List.findSome?_append, ← snapshot?, hbefore, Option.none_or,
    List.findSome?_cons]
  simp [word?]

theorem faithful_nil : Faithful [] := by
  intro before e h
  exact absurd (List.prefix_nil.mp h) (by simp)

theorem Faithful.append (h : Faithful events) (he : Permitted events e) :
    Faithful (events ++ [e]) := by
  intro before e' hprefix
  rcases List.prefix_concat_iff.mp hprefix with heq | hprefix
  · obtain ⟨rfl, hlast⟩ := List.append_inj' heq rfl
    cases hlast
    exact he
  · exact h before e' hprefix

theorem Faithful.permitted (h : Faithful events) (heq : events = before ++ e :: after) :
    Permitted before e :=
  h before e ⟨after, by rw [heq, List.append_assoc]; rfl⟩

/-- What a record says about the registers. -/
structure Snapshot (events : List PassEvent) : Prop where
  /-- A register that has been fetched is not fetched again. -/
  once : ∀ {before name bits after}, events = before ++ fetched name (some bits) :: after →
    ∀ bits?, fetched name bits? ∉ after
  /-- From then on the word that was fetched is what is given for it. -/
  steady : ∀ {before name bits after}, events = before ++ fetched name (some bits) :: after →
    ∀ v?, given name v? ∈ after → v? = some (RegisterCache.ofWord bits)
  /-- Every value that is given has been fetched before, in the same pass. -/
  current : ∀ {before name v after}, events = before ++ given name (some v) :: after →
    ∃ bits, fetched name (some bits) ∈ before ∧ v = RegisterCache.ofWord bits
  /-- No value is given only if the target has just been asked and has none. -/
  asked : ∀ {before name after}, events = before ++ given name none :: after →
    [fetched name none] <:+ before

theorem Faithful.snapshot (h : Faithful events) : Snapshot events where
  once {before name bits after} heq bits? hmem := by
    obtain ⟨since, rest, rfl⟩ := List.append_of_mem hmem
    have hfirst : snapshot? before name = none := h.permitted heq
    rw [← List.cons_append, ← List.append_assoc] at heq
    have hnone : snapshot? (before ++ fetched name (some bits) :: since) name = none :=
      h.permitted heq
    rw [snapshot?_of_fetched hfirst since] at hnone
    cases hnone
  steady {before name bits after} heq v? hmem := by
    obtain ⟨since, rest, rfl⟩ := List.append_of_mem hmem
    have hfirst : snapshot? before name = none := h.permitted heq
    rw [← List.cons_append, ← List.append_assoc] at heq
    have hgiven : v? = (snapshot? (before ++ fetched name (some bits) :: since) name).map
        RegisterCache.ofWord :=
      (h.permitted heq).1
    rw [hgiven, snapshot?_of_fetched hfirst since, Option.map_some]
  current {before name v after} heq := by
    have hgiven : some v = (snapshot? before name).map RegisterCache.ofWord :=
      (h.permitted heq).1
    obtain ⟨bits, hbits, rfl⟩ := Option.map_eq_some_iff.mp hgiven.symm
    obtain ⟨e, he, hword⟩ := List.exists_of_findSome?_eq_some hbits
    exact ⟨bits, eq_fetched_of_word? hword ▸ he, rfl⟩
  asked heq := (h.permitted heq).2 rfl

end PassEvent

open PassEvent

/-! ## Reading registers -/

namespace RegisterCache

variable (c : RegisterCache) (name : String)

/-- The cache after a fetch. -/
def learned (c : RegisterCache) (name : String) : Option UInt64 → RegisterCache
  | some bits => c.settle name (.valid (ofWord bits))
  | none => c

variable {m : Type → Type} [Monad m] (source : String → m (Option UInt64))

theorem read_of_fresh {v : Value} (h : c.fresh? name = some v) :
    c.read source name = pure (some v, c.touch name) :=
  c.readOrFetch_of_fresh name _ h

theorem read_of_not_fresh [LawfulMonad m] (h : c.fresh? name = none) :
    c.read source name = (do
      let bits? ← source name
      return (bits?.map ofWord, c.learned name bits?)) := by
  rw [read, c.readOrFetch_of_not_fresh name _ h, bind_assoc]
  refine bind_congr fun bits? => ?_
  cases bits? with
  | some bits => rw [pure_bind]; rfl
  | none => rw [pure_bind]; rfl

theorem fresh?_learned (bits? : Option UInt64) (h : c.fresh? name = none) (k : String) :
    (c.learned name bits?).fresh? k =
      if name = k then bits?.map ofWord else c.fresh? k := by
  by_cases hk : name = k
  · subst hk
    rw [if_pos rfl]
    cases bits? with
    | some bits => exact c.fresh?_settle_valid name _
    | none => exact h
  · rw [if_neg hk]
    cases bits? with
    | some bits => exact (c.sameBut_settle name _).fresh? (Ne.symm hk)
    | none => rfl

end RegisterCache

namespace Machine

variable {τ : Type} (t : Target τ) (m : Machine τ) {name : String}

theorem run_readRegister :
    (readRegister t name).run m =
      let ((v, registers), target) := (m.registers.read t.readRegister name).run m.target
      (v, ⟨m.store, target, registers⟩) := by
  obtain ⟨store, target, registers⟩ := m
  rfl

theorem run_readRegister_of_fresh {v : Value} (h : m.registers.fresh? name = some v) :
    (readRegister t name).run m = (some v, ⟨m.store, m.target, m.registers.touch name⟩) := by
  rw [run_readRegister, m.registers.read_of_fresh name t.readRegister h]
  rfl

theorem run_readRegister_of_not_fresh (h : m.registers.fresh? name = none)
    {bits? : Option UInt64} {target' : τ}
    (hread : (t.readRegister name).run m.target = (bits?, target')) :
    (readRegister t name).run m =
      (bits?.map RegisterCache.ofWord, ⟨m.store, target', m.registers.learned name bits?⟩) := by
  rw [run_readRegister, m.registers.read_of_not_fresh name t.readRegister h, StateT.run_bind, hread]
  rfl

end Machine

/-! ## The invariant -/

variable {τ : Type}

/-- A machine and its recorded counterpart: they are the same but for the
record, which is faithful, and the cache holds what was fetched. -/
structure Recorded.Tracks (m : Machine τ) (m' : Machine (Recorded τ)) : Prop where
  eq_recorded : m' = m.recorded m'.target.events
  faithful : Faithful m'.target.events
  fresh : ∀ name,
    m.registers.fresh? name = (snapshot? m'.target.events name).map RegisterCache.ofWord

namespace Recorded

variable {α : Type} {m : Machine τ} {events : List PassEvent}

theorem tracks_recorded (hfaithful : Faithful events)
    (hfresh : ∀ name,
      m.registers.fresh? name = (snapshot? events name).map RegisterCache.ofWord) :
    Tracks m (m.recorded events) :=
  ⟨rfl, hfaithful, hfresh⟩

theorem inStep_onStore (act : StateM Store α) :
    InStep Tracks (Machine.onStore (τ := τ) act) (Machine.onStore act) := by
  rintro ⟨store, target, registers⟩ _ ⟨h, hfaithful, hfresh⟩
  rw [h]
  exact ⟨rfl, tracks_recorded hfaithful hfresh⟩

theorem inStep_note (act : StateM τ α) (event : α → PassEvent) (hevent : ∀ a, (event a).IsAside) :
    InStep Tracks (Machine.onTarget act) (Machine.onTarget (note act event)) := by
  rintro ⟨store, target, registers⟩ _ ⟨h, hfaithful, hfresh⟩
  rw [h]
  refine ⟨rfl, tracks_recorded (hfaithful.append (permitted_of_isAside (hevent _))) fun name => ?_⟩
  exact (hfresh name).trans (by rw [snapshot?_append_of_isAside (hevent _)])

/-- What is given for a register is its value in the record. -/
theorem tracks_given {name : String} {v? : Option Value} (h : Tracks m (m.recorded events))
    (hv : v? = (snapshot? events name).map RegisterCache.ofWord)
    (hnone : v? = none → [PassEvent.fetched name none] <:+ events) :
    Tracks m (m.recorded (events ++ [PassEvent.given name v?])) := by
  refine tracks_recorded (h.faithful.append ⟨hv, hnone⟩) fun k => ?_
  rw [snapshot?_given]
  exact h.fresh k

/-- A fetch is made only as long as a register has no value, and its answer is
what the cache holds from then on. -/
theorem tracks_fetched {name : String} (h : Tracks m (m.recorded events))
    (hname : m.registers.fresh? name = none) (target : τ) (bits? : Option UInt64) :
    Tracks ⟨m.store, target, m.registers.learned name bits?⟩
      (Machine.recorded ⟨m.store, target, m.registers.learned name bits?⟩
        (events ++ [PassEvent.fetched name bits?])) := by
  have hnone : snapshot? events name = none :=
    Option.map_eq_none_iff.mp ((h.fresh name).symm.trans hname)
  refine tracks_recorded (h.faithful.append hnone) fun k => ?_
  rw [snapshot?_fetched hnone, m.registers.fresh?_learned name bits? hname k]
  by_cases hk : name = k
  · rw [if_pos hk, if_pos hk]
  · rw [if_neg hk, if_neg hk]
    exact h.fresh k

/-- The link between a pass and the record of it. -/
def link : Pass.Link τ (Recorded τ) where
  machines := Tracks
  memos := Eq
  breaks := Eq
  ids := Eq

section Settings

variable (t : Target τ) (config : Config) (formatter : Formatter)

/-- What is given for a register is written down after it has been read. -/
theorem run_registerValue (name : String) {m' m'' : Machine (Recorded τ)} {v? : Option Value}
    (h : (Machine.readRegister t.recorded name).run m' = (v?, m'')) :
    ((Pass.host (.recorded t config formatter)).registerValue name).run m' =
      (v?, ⟨m''.store, ⟨m''.target.state, m''.target.events ++ [.given name v?]⟩,
        m''.registers⟩) := by
  change (Machine.readRegister t.recorded name >>= fun v? =>
    Machine.onTarget (note (pure v?) (.given name))).run m' = _
  rw [StateT.run_bind, h]
  rfl

theorem inStep_registerValue (name : String) :
    InStep Tracks (Machine.readRegister t name)
      ((Pass.host (.recorded t config formatter)).registerValue name) := by
  intro m m' h
  obtain ⟨events, rfl⟩ : ∃ events, m' = m.recorded events := ⟨_, h.eq_recorded⟩
  cases hname : m.registers.fresh? name with
  | some v =>
    rw [Machine.run_readRegister_of_fresh t m hname, run_registerValue t config formatter name
      (Machine.run_readRegister_of_fresh t.recorded (m.recorded events) hname)]
    refine ⟨rfl, tracks_given (tracks_recorded h.faithful fun k => ?_) ?_ nofun⟩
    · exact (m.registers.fresh?_touch name k).trans (h.fresh k)
    · exact hname.symm.trans (h.fresh name)
  | none =>
    rcases hread : (t.readRegister name).run m.target with ⟨bits?, target⟩
    have hread' : (t.recorded.readRegister name).run (m.recorded events).target =
        (bits?, ⟨target, events ++ [PassEvent.fetched name bits?]⟩) := by
      change (let (result, state) := (t.readRegister name).run m.target
        ((result, ⟨state, events ++ [PassEvent.fetched name result]⟩) :
          Option UInt64 × Recorded τ)) = _
      rw [hread]
    rw [Machine.run_readRegister_of_not_fresh t m hname hread,
      run_registerValue t config formatter name
        (Machine.run_readRegister_of_not_fresh t.recorded (m.recorded events) hname hread')]
    have hfetched := tracks_fetched h hname target bits?
    have hvalue := hfetched.fresh name
    rw [m.registers.fresh?_learned name bits? hname, if_pos rfl] at hvalue
    refine ⟨rfl, tracks_given hfetched hvalue fun hnone => ?_⟩
    rw [Option.map_eq_none_iff.mp hnone]
    exact List.suffix_append events _

theorem inStep_host : Host.InStep Tracks (Machine.host t formatter)
    (Pass.host (.recorded t config formatter)) where
  symbolExists _ _ := inStep_onStore _
  readSymbol _ _ := inStep_onStore _
  writeSymbol _ _ _ := inStep_onStore _
  isArray _ := inStep_onStore _
  newObject := inStep_onStore _
  newArray := inStep_onStore _
  readKey _ _ := inStep_onStore _
  writeKey _ _ _ := inStep_onStore _
  resolvePath _ := .pure _
  bytesUsed := inStep_note t.bytesUsed .measured fun _ => trivial
  dispatch _ _ := .pure _
  memoryInUse _ := .pure _
  answerFor _ _ := .pure _
  hasRegisters := .pure _
  registerValue name := inStep_registerValue t config formatter name
  formatValue spec v := by
    rintro m m' h
    refine ⟨?_, h⟩
    rw [h.eq_recorded]
    rfl

theorem link_sound :
    link.Sound { target := t, config, formatter } (Setting.recorded t config formatter) where
  config := rfl
  host := inStep_host t config formatter
  onStore := inStep_onStore
  read address size := inStep_note (t.read address size) (.read address size) fun _ => trivial
  symbolAddress name := inStep_note (t.symbolAddress name) (.located name) fun _ => trivial
  setVariable name size v := inStep_note (t.setVariable name size v)
    (fun _ => .declared name size v) fun _ => trivial
  isCancelled h := by
    rw [h.eq_recorded]
    rfl
  toMemoSteps := .refl
  reach line h := congrArg (line :: ·) h

/-- A pass starts with a record that is faithful: nothing is in it but that the
variables were cleared, and no cached register counts. -/
theorem tracks_prepare (m : Machine τ) :
    Tracks (View.prepare { target := t, config, formatter } m)
      (View.prepare (.recorded t config formatter) m.recorded) := by
  obtain ⟨store, target, registers⟩ := m
  refine ⟨rfl, ?_, fun name => registers.fresh?_invalidateAll name⟩
  exact faithful_nil.append (e := .cleared) trivial

end Settings

end Recorded

variable (t : Target τ) (config : Config) (formatter : Formatter) (view : View)
  (machine : Machine τ)

/-- **A recorded pass does what the pass itself does**, and its record is
faithful. -/
theorem execute_recorded :
    Faithful (view.events t config formatter machine) ∧
      view.execute (.recorded t config formatter) machine.recorded =
        let (outcome, view', machine') :=
          view.execute { target := t, config, formatter } machine
        (outcome, view', machine'.recorded (view.events t config formatter machine)) := by
  have h : Recorded.link.Concluded (view.execute { target := t, config, formatter } machine)
      (view.execute (.recorded t config formatter) machine.recorded) :=
    Pass.execute_concluded (Recorded.link_sound t config formatter)
      (.refl (fun _ => rfl) view.tree) rfl rfl (Recorded.tracks_prepare t config formatter machine)
  refine ⟨h.machine.faithful, ?_⟩
  have houtcome := h.outcome.eq_of_reverse
  have hmemo := h.memo
  have hmachine := h.machine.eq_recorded
  exact Prod.ext houtcome.symm (Prod.ext (congrArg (View.mk view.tree) hmemo.symm) hmachine)

/-- **A pass sees one snapshot of each register.**  The pass is run on a target
that writes down what it is asked, which does not change what the pass does.
Once a register has been fetched, it is not fetched again, and `__GetRegVal`
answers with the word that was fetched.  Before that every `__GetRegVal` asks
the target, and if this has no answer there is no value, whatever the cache held
when the pass started. -/
theorem registers_fetched_once :
    (view.execute (.recorded t config formatter) machine.recorded =
        let (outcome, view', machine') :=
          view.execute { target := t, config, formatter } machine
        (outcome, view', machine'.recorded (view.events t config formatter machine))) ∧
      Snapshot (view.events t config formatter machine) ∧
      ∀ (scope : Option Ref) (arg : Value),
        (Pass.host (.recorded t config formatter)).callIntrinsic scope .getRegVal [arg] =
          if isPath arg.display then throw (.unresolvedPath arg.display)
          else (do
            match ← (Pass.host (.recorded t config formatter)).registerValue arg.display with
            | some v => return v
            | none => throw (.registerUnavailable arg.display)) := by
  obtain ⟨hfaithful, hexecute⟩ := execute_recorded t config formatter view machine
  exact ⟨hexecute, hfaithful.snapshot, callIntrinsic_getRegVal t config formatter⟩

end TargetView
