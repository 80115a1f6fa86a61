import TargetView.Proofs.Conduct
import TargetView.Proofs.Labels
import TargetView.Proofs.Passes
import TargetView.Proofs.Reads
import TargetView.Proofs.Snapshot

/-! # Reads stay within the limits

Whatever a pass asks its target for, a memory read is of one byte at least and
of no more bytes than the limit (`Recorded.within_events`): all reads of a pass
go through one function, which moves the size into the limits, and evaluations
read no memory.

Within these limits no element is cut off: together with what single reads store,
this is `reads_stay_within_limits`.
-/
namespace TargetView

open Contract

variable {τ α : Type}

/-- A read is of at least one byte, and of at most as many as one read may have;
other events have no size. -/
def PassEvent.Within (config : Config) : PassEvent → Prop
  | read _ size _ => 1 ≤ size ∧ size ≤ max 1 config.maxReadBytes
  | _ => True

theorem Config.clampSize_within (config : Config) (size : Nat) :
    1 ≤ config.clampSize size ∧ config.clampSize size ≤ max 1 config.maxReadBytes := by
  unfold Config.clampSize
  omega

namespace Recorded

variable (config : Config)

/-- All reads so far are within the limits. -/
def Within (m : Machine (Recorded τ)) : Prop := ∀ e ∈ m.target.events, e.Within config

/-- Evaluations read within the limits. -/
def readsOf : HostContract (Machine (Recorded τ)) where
  Holds := Within config
  Excuses _ _ := True
  excuses_plain _ := trivial

/-- A pass reads within the limits. -/
def reads : Contract Abort (PassState (Recorded τ)) where
  Holds s := Within config s.machine
  Excuses _ _ := True

variable {config} {m : Machine (Recorded τ)} {Q : Machine (Recorded τ) → α → Prop}

theorem Within.append (hm : Within config m) {e : PassEvent} (he : e.Within config) (state : τ)
    (store : Store) (registers : RegisterCache) :
    Within config ⟨store, ⟨state, m.target.events ++ [e]⟩, registers⟩ :=
  List.forall_mem_append.mpr ⟨hm, List.forall_mem_singleton.mpr he⟩

theorem steady_onStore (act : StateM Store α) (hQ : ∀ m a, Q m a) :
    (readsOf config).Steady m (Machine.onStore act) Q :=
  fun hm => ⟨hm, trivial, hQ _ _⟩

theorem steady_note (act : StateM τ α) {event : α → PassEvent} (h : ∀ a, (event a).Within config)
    (hQ : ∀ m a, Q m a) : (readsOf config).Steady m (Machine.onTarget (note act event)) Q :=
  fun hm => ⟨hm.append (h _) _ _ _, trivial, hQ _ _⟩

theorem allows_note (act : StateM τ α) (event : α → PassEvent)
    (h : ∀ a, (event a).Within config) : (reads config).Allows (Pass.onTarget (note act event)) :=
  fun _ hs => ⟨hs.append (h _) _ _ _, trivial, trivial⟩

variable (t : Target τ) (formatter : Formatter)

/-- A register is given from the cache, or it is fetched; neither reads memory. -/
theorem within_readRegister (name : String) (hm : Within config m) :
    Within config ((Machine.readRegister t.recorded name).run m).2 := by
  cases hname : m.registers.fresh? name with
  | some v =>
    rw [Machine.run_readRegister_of_fresh t.recorded m hname]
    exact hm
  | none =>
    rw [Machine.run_readRegister_of_not_fresh t.recorded m hname rfl]
    exact hm.append (e := .fetched name _) trivial _ _ _

theorem steady_registerValue (name : String) :
    (readsOf config).Steady m
      ((Pass.host (.recorded t config formatter)).registerValue name)
      fun m v? => ∀ v ∈ v?, (readsOf config).Known m v := by
  intro hm
  rw [run_registerValue t config formatter name rfl]
  exact ⟨(within_readRegister t name hm).append (e := .given name _) trivial _ _ _, trivial,
    fun _ _ _ _ => trivial⟩

variable (config) in
theorem honours_readsOf :
    (Pass.host (.recorded t config formatter)).Honours (readsOf config) where
  symbolExists _ _ _ := steady_onStore _ fun _ _ => trivial
  readSymbol _ _ _ := steady_onStore _ fun _ _ _ _ _ _ => trivial
  writeSymbol _ _ _ _ _ := steady_onStore _ fun _ _ => trivial
  newObject _ := steady_onStore _ fun _ _ => trivial
  newArray _ := steady_onStore _ fun _ _ => trivial
  readKey _ _ _ := steady_onStore _ fun _ _ _ _ _ _ => trivial
  writeKey _ _ _ _ _ := steady_onStore _ fun _ _ => trivial
  resolvePath _ _ := steady_pure nofun
  bytesUsed _ := steady_note _ (fun _ => trivial) fun _ _ _ => trivial
  dispatch _ _ _ _ := steady_pure nofun
  memoryInUse _ _ _ := steady_pure nofun
  answerFor _ _ _ := steady_pure nofun
  hasRegisters _ := steady_pure nofun
  registerValue _ name := steady_registerValue t formatter name
  formatValue _ _ _ _ hm := ⟨hm, trivial, trivial⟩

theorem honours_reads : (Setting.recorded t config formatter).Honours (reads config) where
  checkCancelled s := Pass.keeps_checkCancelled fun _ => trivial
  value? f s := by
    have hattempt := Evaluation.steady_attempt (s := s.machine)
      (honours_readsOf config t formatter) none f.parsed
    exact Pass.keeps_value? fun hs => ⟨(hattempt hs).1, trivial, fun _ _ => trivial⟩
  onStore _ _ hs := ⟨hs, trivial, trivial⟩
  read address size :=
    allows_note _ (.read address _) fun _ => config.clampSize_within size
  symbolAddress name := allows_note _ (.located name) fun _ => trivial
  setVariable name size v := allows_note _ (fun _ => .declared name size v) fun _ => trivial
  onResults _ _ hs := ⟨hs, trivial, trivial⟩
  markDone _ _ hs := ⟨hs, trivial, trivial⟩
  reach _ _ hs := ⟨hs, trivial, trivial⟩
  disable _ _ hs := ⟨hs, trivial, trivial⟩

/-- The reads of a pass are within the limits. -/
theorem within_events (view : View) (machine : Machine τ) :
    ∀ e ∈ view.events t config formatter machine, e.Within config := by
  have hstart : Within config (View.prepare (.recorded t config formatter) machine.recorded) := by
    intro e he
    obtain rfl : e = .cleared := List.mem_singleton.mp he
    trivial
  obtain ⟨s, hs, -, hfinal, -⟩ :=
    view.execute_keeps (honours_reads t formatter) machine.recorded hstart
  unfold View.events
  rw [hfinal]
  exact hs

end Recorded

/-- **Memory reads stay within the limits.**  Every read of a pass is of one byte
at least and of no more than the limit, and no size is formed with a carry.  If
the limit is eight bytes or more, a read that gets its bytes stores exactly the
elements that were asked for, as far as the limits allow: a read with a name
stores a scalar if there is one element, and otherwise an array; a list read of
consecutive elements always stores an array. -/
theorem reads_stay_within_limits (t : Target τ) (config : Config) (formatter : Formatter) :
    (∀ (view : View) (machine : Machine τ) address size bytes?,
      PassEvent.read address size bytes? ∈ view.events t config formatter machine →
        1 ≤ size ∧ size ≤ max 1 config.maxReadBytes) ∧
    (config.maxReadBytes < UInt32.size → ∀ (type : ElementType) (count : Nat),
      (UInt64.ofNat (config.fitCount type count) * UInt64.ofNat type.size).toNat =
        config.fitCount type count * type.size) ∧
    (8 ≤ config.maxReadBytes →
      let S : Setting τ := { target := t, config, formatter }
      ∀ (id : Nat) (s : PassState τ),
        (∀ r : Read, r.name.isEmpty = false →
          ∀ d : Pass.Delivery S id r.source r.count? config.maxReadElements s,
            ∃ final, (Pass.read S id r).run.run s = (.ok (), final) ∧
              if d.count = 1 then ∃ x, r.source.type.decode r.source.order d.bytes = .scalar x ∧
                final.machine.store.get? r.name = some (.scalar x)
              else final.machine.store.BindsArray r.name d.items ∧ d.items.size = d.count) ∧
        ∀ r : ListRead, r.name.isEmpty = false → r.next? = none →
          ∀ d : Pass.Delivery S id r.source r.count? config.maxListElements s,
            ∃ final, (Pass.readList S id r).run.run s = (.ok (), final) ∧
              final.machine.store.BindsArray r.name d.items ∧ d.items.size = d.count) := by
  refine ⟨fun view machine address size bytes? hmem => ?_, fun hlimit type count => ?_,
    fun hbytes => ?_⟩
  · exact Recorded.within_events t formatter view machine _ hmem
  · exact config.toNat_fitCount_mul_size type hlimit count
  · intro S id s
    exact ⟨fun r hname d => Pass.read_stores hbytes hname d,
      fun r hname hnext d => Pass.readList_stores hbytes hname hnext d⟩

/-- Three halfwords of a memory that is zero everywhere, as a read and as a list
read. -/
theorem reads_stay_within_limits_zeros :
    let t : Target Unit :=
      { read := fun _ size => pure (some (List.replicate size 0))
        setVariable := fun _ _ _ => pure ()
        clearVariables := pure ()
        readRegister := fun _ => pure none
        writeRegister := fun _ _ => pure false }
    let S : Setting Unit := { target := t }
    let source : Source := ⟨.u16, none, none, .little, false, true⟩
    let count : Formula := .ofText "3"
    let s : PassState Unit := { machine := { target := () }, memo := {} }
    (∃ final, (Pass.read S 0 ⟨"xs", source, some count⟩).run.run s = (.ok (), final) ∧
        ∃ items, final.machine.store.BindsArray "xs" items ∧ items.size = 3) ∧
      ∃ final, (Pass.readList S 0 ⟨"xs", source, some count, none⟩).run.run s = (.ok (), final) ∧
        ∃ items, final.machine.store.BindsArray "xs" items ∧ items.size = 3 := by
  intro t S source count s
  have hconstant : count.parsed.body.pureConstant? = some (.number 3) := by
    decide +kernel
  have hcounts : (Pass.intOr S 1 (some count)).run.run s = (.ok 3, s) :=
    Pass.run_intOr_of_pureConstant? hconstant 1
  let d (most : Nat) (h : S.config.elementCount .u16 most 3 = 3) :
      Pass.Delivery S 0 source (some count) most s :=
    { fresh := rfl
      address := 0
      located := s
      locates := rfl
      requested := 3
      counted := s
      counts := hcounts
      bytes := List.replicate 6 0
      target := ()
      answers := by rw [h]; rfl
      complete := by rw [h]; rfl }
  have hread : S.config.elementCount .u16 S.config.maxReadElements 3 = 3 := by decide
  have hlist : S.config.elementCount .u16 S.config.maxListElements 3 = 3 := by decide
  obtain ⟨hreads, hlists⟩ :=
    (reads_stay_within_limits t {} fun _ _ => none).2.2 (by decide) 0 s
  obtain ⟨final, hrun, hstored⟩ := hreads ⟨"xs", source, some count⟩ (by decide) (d _ hread)
  obtain ⟨final', hrun', hstored'⟩ :=
    hlists ⟨"xs", source, some count, none⟩ (by decide) rfl (d _ hlist)
  have hcount : (d _ hread).count = 3 := hread
  rw [hcount, if_neg (by decide)] at hstored
  exact ⟨⟨final, hrun, _, hstored⟩, final', hrun', _, hstored'.1, hstored'.2.trans hlist⟩

end TargetView
