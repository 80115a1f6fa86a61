import TargetView.Proofs.Contract
import TargetView.View

/-! # Passes keep what their steps keep

A setting honours a contract (`Setting.Honours`) if the basic steps of a pass
under it do: those that go to the machine, and the changes to what is kept from
pass to pass and to what is reported.  Then every pass keeps the contract,
whatever tree it runs (`allows_runTree`).  The loops are followed along their
bounds, the tree along its children.

Only reads read memory and are marked as done.  All other statements keep a
contract even if these two steps do not (`Setting.Handles`).
-/
namespace TargetView

open Contract

/-- Every run of the step keeps the contract, whatever its value is. -/
def Contract.Allows {ε σ α : Type} (C : Contract ε σ) (x : ExceptT ε (StateM σ) α) : Prop :=
  ∀ s, C.Keeps s x fun _ _ => True

namespace Contract

variable {ε σ α β : Type} {C : Contract ε σ}

theorem allows_pure (a : α) : C.Allows (pure a) := fun _ => keeps_pure trivial

theorem keeps_get (s : σ) : C.Keeps s (get : ExceptT ε (StateM σ) σ) fun t a => t = s ∧ a = s :=
  fun hs => ⟨hs, C.refl s, rfl, rfl⟩

theorem allows_get : C.Allows (get : ExceptT ε (StateM σ) σ) :=
  fun s => (keeps_get s).imp fun _ _ _ => trivial

theorem Allows.bind {x : ExceptT ε (StateM σ) α} {f : α → ExceptT ε (StateM σ) β}
    (hx : C.Allows x) (hf : ∀ a, C.Allows (f a)) : C.Allows (x >>= f) :=
  fun s => (hx s).bind fun t a _ _ => hf a t

theorem Allows.map {x : ExceptT ε (StateM σ) α} (hx : C.Allows x) (f : α → β) :
    C.Allows (do return f (← x)) :=
  hx.bind fun _ => allows_pure _

end Contract

variable {τ α : Type}

/-- The basic steps of a pass keep a contract, but for those that read memory and
those that mark a read as done. -/
structure Setting.Handles (S : Setting τ) (C : Contract Abort (PassState τ)) : Prop where
  checkCancelled : C.Allows (Pass.checkCancelled S)
  value? : ∀ f, C.Allows (Pass.value? S f)
  onStore : ∀ {α : Type} (act : StateM Store α), C.Allows (Pass.onStore act)
  symbolAddress : ∀ name, C.Allows (Pass.onTarget (S.target.symbolAddress name))
  setVariable : ∀ name size v, C.Allows (Pass.onTarget (S.target.setVariable name size v))
  onResults : ∀ act : Std.ExtTreeMap Nat (List (Option Value)) →
    Std.ExtTreeMap Nat (List (Option Value)),
    C.Allows (Pass.onMemo fun memo => { memo with results := act memo.results })
  reach : ∀ line : Nat, C.Allows (modify fun s => { s with breaks := line :: s.breaks })
  disable : ∀ line : Nat, C.Allows (modify fun s => { s with disabled := line :: s.disabled })

/-- The basic steps of a pass keep a contract. -/
structure Setting.Honours (S : Setting τ) (C : Contract Abort (PassState τ)) : Prop
    extends S.Handles C where
  read : ∀ address size, C.Allows (Pass.onTarget (S.target.read address (S.config.clampSize size)))
  markDone : ∀ id, C.Allows (Pass.markDone id)

/-- What keeps one contract, keeps another one that is kept by everything which
keeps the first. -/
theorem Setting.Handles.imp {S : Setting τ} {C C' : Contract Abort (PassState τ)}
    (hS : S.Handles C) (h : ∀ {α : Type} {x : Pass τ α}, C.Allows x → C'.Allows x) :
    S.Handles C' where
  checkCancelled := h hS.checkCancelled
  value? f := h (hS.value? f)
  onStore act := h (hS.onStore act)
  symbolAddress name := h (hS.symbolAddress name)
  setVariable name size v := h (hS.setVariable name size v)
  onResults act := h (hS.onResults act)
  reach line := h (hS.reach line)
  disable line := h (hS.disable line)

namespace Pass

variable {S : Setting τ} {C : Contract Abort (PassState τ)}

/-! ## Steps that may end a pass -/

theorem keeps_checkCancelled {s : PassState τ}
    (h : S.target.isCancelled s.machine.target = true → C.Excuses .cancelled s) :
    C.Keeps s (checkCancelled S) fun _ _ => True := by
  refine (keeps_get s).bind fun t a _ hget => ?_
  obtain ⟨rfl, rfl⟩ := hget
  split
  · next hcancelled => exact keeps_throw (h hcancelled)
  · exact keeps_pure trivial

/-- A formula keeps what its evaluation keeps. -/
theorem keeps_value? {f : Formula} {s : PassState τ}
    (h : C.Keeps s (onMachine (Evaluation.attempt (host S) none f.parsed).run) fun t result =>
      ∀ missing, result = .error missing → C.Excuses (.missing missing) t) :
    C.Keeps s (value? S f) fun _ _ => True := by
  refine h.bind fun t result _ hfailure => ?_
  cases result with
  | ok v => exact keeps_pure trivial
  | error missing => exact keeps_throw (hfailure missing rfl)

end Pass

/-! ## What is made of a formula -/

namespace Contract.Allows

variable {S : Setting τ} {C : Contract Abort (PassState τ)}

section Formula

variable {f : Formula} (h : C.Allows (Pass.value? S f))
include h

theorem int? : C.Allows (Pass.int? S f) := h.map _

theorem holds : C.Allows (Pass.holds S f) := h.map _

theorem text? : C.Allows (Pass.text? S f) := by
  refine h.bind fun v? => ?_
  cases v? with
  | some v => exact (allows_get.map _).bind fun _ => allows_pure _
  | none => exact allows_pure _

end Formula

/-- A label is evaluated only if it is a format text. -/
theorem label? {f : Formula} (h : f.isTemplate = true → C.Allows (Pass.value? S f)) :
    C.Allows (Pass.label? S f) := by
  unfold Pass.label?
  split
  · next htemplate => exact (h htemplate).text?
  · exact allows_pure _

theorem onFormula {step : Formula → Pass τ (Option String)} {f? : Option Formula}
    (h : ∀ f ∈ f?, C.Allows (step f)) : C.Allows (Pass.onFormula step f?) := by
  cases f? with
  | none => exact allows_pure _
  | some f => exact h f rfl

section Optional

variable {f? : Option Formula} (h : ∀ f ∈ f?, C.Allows (Pass.value? S f))
include h

theorem condition : C.Allows (Pass.condition S f?) := by
  cases f? with
  | none => exact allows_pure _
  | some f => exact (h f rfl).holds

theorem offset? : C.Allows (Pass.offset? S f?) := by
  cases f? with
  | none => exact allows_pure _
  | some f => exact (h f rfl).int?

end Optional

theorem listCount {r : ListRead} (h : ∀ f ∈ r.count?, C.Allows (Pass.value? S f)) :
    C.Allows (Pass.listCount S r) := by
  unfold Pass.listCount
  split
  · next f hcount => exact (h f hcount).int?.map _
  · exact allows_pure _

/-! ## What is made of memory -/

section Memory

variable (hread : ∀ address size, C.Allows (Pass.readMemory S address size))
include hread

theorem readPointer (address : UInt64) : C.Allows (Pass.readPointer S address) :=
  (hread _ _).map _

theorem startAddress {source : Source}
    (hsymbol : C.Allows (Pass.symbolAddress? S source.symbol?))
    (hoffset : C.Allows (Pass.offset? S source.offset?)) :
    C.Allows (Pass.startAddress S source) := by
  refine hsymbol.bind fun base? => ?_
  cases base? with
  | none => exact allows_pure _
  | some base =>
    refine hoffset.bind fun offset? => ?_
    cases offset? with
    | none => exact allows_pure _
    | some offset =>
      dsimp only
      split
      · exact readPointer hread _
      · exact allows_pure _

theorem followLinks (type : ElementType) (order : ByteOrder) (next : Int64) (count : Nat) :
    ∀ (found : Array Value) (address : UInt64),
      C.Allows (Pass.followLinks S type order next found count address) := by
  induction count with
  | zero => exact fun found _ => allows_pure found
  | succ count ih =>
    intro found address
    rw [Pass.followLinks]
    split
    · exact allows_pure _
    · refine (hread _ _).bind fun bytes? => ?_
      cases bytes? with
      | none => exact allows_pure _
      | some bytes =>
        refine (readPointer hread _).bind fun link? => ?_
        cases link? with
        | none => exact allows_pure _
        | some link => exact ih _ link

end Memory

end Contract.Allows

namespace Pass

variable {S : Setting τ} {C : Contract Abort (PassState τ)}

section Formulas

variable (hS : S.Handles C)
include hS

/-! ## Formulas -/

theorem allows_setSymbol (name : String) (v : Value) : C.Allows (setSymbol (τ := τ) name v) :=
  hS.onStore _

theorem allows_int? (f : Formula) : C.Allows (int? S f) := (hS.value? f).int?

theorem allows_intOr (absent : Int64) (f? : Option Formula) : C.Allows (intOr S absent f?) := by
  cases f? with
  | none => exact allows_pure _
  | some f => exact (allows_int? hS f).map _

theorem allows_holds (f : Formula) : C.Allows (holds S f) := (hS.value? f).holds

theorem allows_text? (f : Formula) : C.Allows (text? S f) := (hS.value? f).text?

theorem allows_label? (f : Formula) : C.Allows (label? S f) := .label? fun _ => hS.value? f

omit hS in
theorem allows_onFormula {step : Formula → Pass τ (Option String)}
    (h : ∀ f, C.Allows (step f)) (f? : Option Formula) : C.Allows (onFormula step f?) :=
  .onFormula fun f _ => h f

theorem allows_condition (f? : Option Formula) : C.Allows (condition S f?) :=
  .condition fun f _ => hS.value? f

/-! ## Parts of reads -/

theorem allows_symbolAddress? (symbol? : Option String) :
    C.Allows (symbolAddress? S symbol?) := by
  cases symbol? with
  | none => exact allows_pure _
  | some name => exact hS.symbolAddress name

theorem allows_offset? (f? : Option Formula) : C.Allows (offset? S f?) :=
  .offset? fun f _ => hS.value? f

theorem allows_bind (name : String) (v : Value) : C.Allows (bind (τ := τ) name v) := by
  unfold bind
  split
  · exact allows_pure _
  · exact allows_setSymbol hS name v

theorem allows_bindArray (name : String) (items : Array Value) :
    C.Allows (bindArray (τ := τ) name items) := by
  unfold bindArray
  split
  · exact allows_pure _
  · exact (hS.onStore _).bind fun _ => allows_pure _

theorem allows_listCount (r : ListRead) : C.Allows (listCount S r) :=
  .listCount fun f _ => hS.value? f

/-! ## Statements -/

theorem allows_variableSize (v : Variable) : C.Allows (variableSize S v) := by
  unfold variableSize
  split
  · exact allows_pure _
  · refine (allows_int? hS _).bind fun n? => ?_
    split
    · split <;> exact allows_pure _
    · exact allows_pure _
  · exact allows_pure _

theorem allows_initialValue (v : Variable) : C.Allows (initialValue S v) := by
  unfold initialValue
  split
  · exact hS.value? _
  · exact allows_pure _

theorem allows_declare (v : Variable) : C.Allows (declare S v) := by
  unfold declare
  split
  · exact allows_pure _
  · refine (allows_initialValue hS v).bind fun value? => ?_
    cases value? with
    | none => exact allows_pure _
    | some value =>
      exact (allows_variableSize hS v).bind fun size => (allows_setSymbol hS _ _).bind fun _ =>
        hS.setVariable _ _ _

theorem allows_values (formulas : List Formula) : C.Allows (values S formulas) := by
  induction formulas with
  | nil => exact allows_pure _
  | cons f rest ih => exact (hS.value? f).bind fun _ => ih.map _

theorem allows_calculate (id : Nat) (formulas : List Formula) :
    C.Allows (calculate S id formulas) :=
  (hS.onResults (·.erase id)).bind fun _ => (allows_values hS formulas).bind fun results =>
    hS.onResults (·.insert id results)

omit hS in
theorem allows_iterate {goesOn : Int64 → Pass τ Bool} {body : Pass τ (List Row)}
    (hgo : ∀ index, C.Allows (goesOn index)) (hbody : C.Allows body) (fuel : Nat) :
    ∀ (index : Int64) (rows : Array Row), C.Allows (iterate goesOn body fuel index rows) := by
  induction fuel with
  | zero =>
    intro index rows
    exact ((hgo index).map _).bind fun _ => allows_pure _
  | succ fuel ih =>
    intro index rows
    rw [iterate]
    refine (hgo index).bind fun goes => ?_
    split
    · exact hbody.bind fun more => ih _ _
    · exact allows_pure _

theorem allows_test (while? : Option Formula) (otherwise : Bool) :
    C.Allows
      (match while? with
        | some condition => holds S condition
        | none => pure otherwise) := by
  cases while? with
  | some condition => exact allows_holds hS condition
  | none => exact allows_pure _

theorem allows_goesOn (l : Loop) (limit index : Int64) : C.Allows (goesOn S l limit index) := by
  unfold goesOn
  cases l.name? with
  | some name => exact (allows_setSymbol hS name _).bind fun _ => allows_test hS l.while? _
  | none => exact allows_test hS l.while? _

theorem allows_loop (l : Loop) (line : Nat) {body : Pass τ (List Row)} (hbody : C.Allows body) :
    C.Allows (loop S l line body) := by
  unfold loop
  split
  · exact (allows_intOr hS 0 l.start?).bind fun start => (allows_intOr hS 0 l.limit?).bind
      fun limit => (allows_iterate (allows_goesOn hS l limit) hbody _ _ _).map _
  · exact (hS.disable line).bind fun _ => allows_pure _

/-- The effect of a statement keeps the contract, if what is below it does, and
the read that it may be. -/
theorem allows_effect (id line : Nat) {statement : Statement} {below : Pass τ (List Row)}
    (hread : ∀ r, statement = .read r → C.Allows (read S id r))
    (hreadList : ∀ r, statement = .readList r → C.Allows (readList S id r))
    (hbelow : C.Allows below) : C.Allows (effect S id line statement below) := by
  cases statement with
  | group g =>
    exact (allows_onFormula (allows_text? hS) _).bind fun _ => hbelow.map _
  | row r =>
    exact (allows_onFormula (allows_label? hS) _).bind fun _ =>
      (allows_onFormula (allows_label? hS) _).bind fun _ => hbelow.map _
  | var v => exact (allows_declare hS v).bind fun _ => hbelow
  | «calc» formulas => exact (allows_calculate hS id formulas).bind fun _ => hbelow
  | read r => exact (hread r rfl).bind fun _ => hbelow
  | readList r => exact (hreadList r rfl).bind fun _ => hbelow
  | list l => exact allows_loop hS l line hbelow
  | breakpoint label? => exact (hS.reach line).bind fun _ => hbelow

end Formulas

/-! ## Reads -/

section Reads

variable (hS : S.Honours C)
include hS

theorem allows_readMemory (address : UInt64) (size : Nat) :
    C.Allows (readMemory S address size) :=
  hS.read _ _

theorem allows_startAddress (source : Source) : C.Allows (startAddress S source) :=
  .startAddress (allows_readMemory hS) (allows_symbolAddress? hS.toHandles _)
    (allows_offset? hS.toHandles _)

theorem allows_followLinks (type : ElementType) (order : ByteOrder) (next : Int64) (count : Nat)
    (found : Array Value) (address : UInt64) :
    C.Allows (followLinks S type order next found count address) :=
  .followLinks (allows_readMemory hS) type order next count found address

theorem allows_fetch (r : Read) : C.Allows (fetch S r) := by
  refine (allows_startAddress hS _).bind fun address? => ?_
  cases address? with
  | none => exact allows_pure _
  | some address =>
    refine (allows_intOr hS.toHandles 1 r.count?).bind fun requested =>
      (allows_readMemory hS _ _).bind fun bytes? => ?_
    cases bytes? with
    | none => exact allows_pure _
    | some bytes =>
      dsimp only
      split
      · exact (allows_bind hS.toHandles _ _).bind fun _ => allows_pure _
      · exact (allows_bindArray hS.toHandles _ _).bind fun _ => allows_pure _

theorem allows_fetchList (r : ListRead) : C.Allows (fetchList S r) := by
  refine (allows_startAddress hS _).bind fun start? => ?_
  cases start? with
  | none => exact allows_pure _
  | some start =>
    refine (allows_listCount hS.toHandles r).bind fun count => ?_
    cases r.next? with
    | some next =>
      refine (allows_int? hS.toHandles next).bind fun next? => ?_
      cases next? with
      | none => exact allows_pure _
      | some next =>
        exact (allows_followLinks hS _ _ _ _ _ _).bind fun items =>
          (allows_bindArray hS.toHandles _ _).bind fun _ => allows_pure _
    | none =>
      refine (allows_readMemory hS _ _).bind fun bytes? => ?_
      cases bytes? with
      | none => exact allows_pure _
      | some bytes => exact (allows_bindArray hS.toHandles _ _).bind fun _ => allows_pure _

theorem allows_unlessDone (id : Nat) (once : Bool) {read : Pass τ Bool} (hread : C.Allows read) :
    C.Allows (unlessDone id once read) := by
  refine (allows_get.map _).bind fun done => ?_
  split
  · exact allows_pure _
  · refine hread.bind fun read => ?_
    split
    · exact hS.markDone _
    · exact allows_pure _

theorem allows_read (id : Nat) (r : Read) : C.Allows (read S id r) :=
  allows_unlessDone hS id r.source.once (allows_fetch hS r)

theorem allows_readList (id : Nat) (r : ListRead) : C.Allows (readList S id r) :=
  allows_unlessDone hS id r.source.once (allows_fetchList hS r)

end Reads

/-! ## Trees -/

mutual
theorem allows_runNode (hS : S.Honours C) : ∀ n : StatementNode, C.Allows (runNode S n)
  | ⟨id, statement, line, condition?, children⟩ => by
    rw [runNode]
    refine hS.checkCancelled.bind fun _ =>
      (allows_condition hS.toHandles condition?).bind fun runs => ?_
    split
    · exact allows_effect hS.toHandles id line (fun r _ => allows_read hS id r)
        (fun r _ => allows_readList hS id r) (allows_runNodes hS children)
    · exact allows_pure _

theorem allows_runNodes (hS : S.Honours C) : ∀ ns : List StatementNode, C.Allows (runNodes S ns)
  | [] => allows_pure _
  | n :: rest => by
    rw [runNodes]
    exact (allows_runNode hS n).bind fun _ => (allows_runNodes hS rest).map _
end

/-- **Every pass keeps what its steps keep.** -/
theorem allows_runTree (hS : S.Honours C) (tree : StatementTree) : C.Allows (runTree S tree) := by
  obtain ⟨root?⟩ := tree
  cases root? with
  | none => exact allows_pure _
  | some root => exact allows_runNode hS root

end Pass

/-- The state that an executed pass starts with. -/
def View.start (setting : Setting τ) (view : View) (m : Machine τ) : PassState τ :=
  { machine := View.prepare setting m, memo := view.memo }

/-- The state that an executed pass ends with is one that the contract allows,
and so is the reason if it ended early. -/
theorem View.execute_keeps {S : Setting τ} {C : Contract Abort (PassState τ)} (hS : S.Honours C)
    (view : View) (m : Machine τ) (hstart : C.Holds (view.start S m)) :
    ∃ s, C.Holds s ∧ C.Becomes (view.start S m) s ∧
      (view.execute S m).2 = (⟨view.tree, s.memo⟩, s.machine) ∧
      ∀ e, (view.execute S m).1 = .error e → C.Excuses e s := by
  obtain ⟨hs, hbecomes, hends⟩ := Pass.allows_runTree hS view.tree (view.start S m) hstart
  refine ⟨_, hs, hbecomes, rfl, fun e he => ?_⟩
  have hresult : (((Pass.runTree S view.tree).run.run (view.start S m)).1.map fun rows =>
      (⟨rows, _, _⟩ : Report)) = .error e := he
  cases hrun : ((Pass.runTree S view.tree).run.run (view.start S m)).1 with
  | ok rows =>
    rw [hrun] at hresult
    cases hresult
  | error e' =>
    rw [hrun] at hresult hends
    obtain rfl : e' = e := Except.error.inj hresult
    exact hends

end TargetView
