import TargetView.Pass.Run
import TargetView.Proofs.Lockstep
import TargetView.Proofs.Trees

/-! # Passes side by side

Two passes, each over a target of its own, are run side by side.  A `Link` says
part by part how their states are related: the machines, what is kept from pass
to pass, and the breakpoints reached; and which numbers of nodes correspond.
It is sound for two settings (`Link.Sound`) if every basic step of a pass keeps
it.  Then every statement has the same effect in both passes, provided that
what is below it does (`couples_effect`).

If the nodes of two trees are alike, and the extra ones of the second leave no
row and keep the link, then the trees give the same rows (`couples_runNode`).
-/
namespace TargetView
namespace Pass

open Coupling

variable {τ τ' : Type}

/-! ## Links -/

/-- The steps of two passes that go to the machine keep a relation of the
machines. -/
structure MachineSteps (machines : Machine τ → Machine τ' → Prop) (S : Setting τ)
    (T : Setting τ') : Prop where
  config : S.config = T.config
  host : Host.InStep machines (Pass.host S) (Pass.host T)
  onStore : ∀ {α : Type} (act : StateM Store α),
    InStep machines (Machine.onStore act) (Machine.onStore act)
  read : ∀ address size, InStep machines (Machine.onTarget (S.target.read address size))
    (Machine.onTarget (T.target.read address size))
  symbolAddress : ∀ name, InStep machines (Machine.onTarget (S.target.symbolAddress name))
    (Machine.onTarget (T.target.symbolAddress name))
  setVariable : ∀ name size v,
    InStep machines (Machine.onTarget (S.target.setVariable name size v))
      (Machine.onTarget (T.target.setVariable name size v))
  isCancelled : ∀ {m m'}, machines m m' →
    S.target.isCancelled m.target = T.target.isCancelled m'.target

theorem MachineSteps.refl (S : Setting τ) : MachineSteps Eq S S where
  config := rfl
  host := .refl _
  onStore _ := .refl _
  read _ _ := .refl _
  symbolAddress _ := .refl _
  setVariable _ _ _ := .refl _
  isCancelled h := by rw [h]

/-- The changes that two passes make to what is kept from pass to pass keep a
relation of it. -/
structure MemoSteps (memos : Memo → Memo → Prop) (ids : Nat → Nat → Prop) : Prop where
  contains_done : ∀ {memo memo' id id'}, memos memo memo' → ids id id' →
    memo.done.contains id = memo'.done.contains id'
  insert_done : ∀ {memo memo' id id'}, memos memo memo' → ids id id' →
    memos { memo with done := memo.done.insert id } { memo' with done := memo'.done.insert id' }
  erase_results : ∀ {memo memo' id id'}, memos memo memo' → ids id id' →
    memos { memo with results := memo.results.erase id }
      { memo' with results := memo'.results.erase id' }
  insert_results : ∀ {memo memo' id id'} (results : List (Option Value)), memos memo memo' →
    ids id id' → memos { memo with results := memo.results.insert id results }
      { memo' with results := memo'.results.insert id' results }

theorem MemoSteps.refl : MemoSteps Eq Eq where
  contains_done h hid := by rw [h, hid]
  insert_done h hid := by rw [h, hid]
  erase_results h hid := by rw [h, hid]
  insert_results _ h hid := by rw [h, hid]

/-- How the states of two passes are related. -/
structure Link (τ τ' : Type) where
  machines : Machine τ → Machine τ' → Prop
  memos : Memo → Memo → Prop
  breaks : List Nat → List Nat → Prop
  /-- The numbers of nodes that correspond. -/
  ids : Nat → Nat → Prop

namespace Link

/-- The states of two passes are related in every part; the loops that were not
run are the same. -/
structure Linked (L : Link τ τ') (s : PassState τ) (t : PassState τ') : Prop where
  machine : L.machines s.machine t.machine
  memo : L.memos s.memo t.memo
  breaks : L.breaks s.breaks t.breaks
  disabled : s.disabled = t.disabled

/-- The coupling of passes that a link gives, with some excuses. -/
def coupling (L : Link τ τ') (excuses : Abort → PassState τ' → Prop) :
    Coupling Abort (PassState τ) (PassState τ') := ⟨L.Linked, excuses⟩

/-- The basic steps of passes under two settings keep a link. -/
structure Sound (L : Link τ τ') (S : Setting τ) (T : Setting τ') : Prop
    extends MachineSteps L.machines S T, MemoSteps L.memos L.ids where
  reach : ∀ {b b'} (line : Nat), L.breaks b b' → L.breaks (line :: b) (line :: b')

end Link

variable {α : Type} {L : Link τ τ'} {S : Setting τ} {T : Setting τ'} (hL : L.Sound S T)
  {excuses : Abort → PassState τ' → Prop}

/-! ## Basic steps -/

theorem couples_onMachine {x : StateM (Machine τ) α} {y : StateM (Machine τ') α}
    (h : InStep L.machines x y) : (L.coupling excuses).Couples (onMachine x) (onMachine y) := by
  intro s t hst
  obtain ⟨ha, hm⟩ := h s.machine t.machine hst.machine
  exact .inr ⟨congrArg Except.ok ha, hm, hst.memo, hst.breaks, hst.disabled⟩

theorem run_checkCancelled (S : Setting τ) (s : PassState τ) :
    (checkCancelled S).run.run s =
      if S.target.isCancelled s.machine.target then (.error .cancelled, s) else (.ok (), s) := by
  change ((if S.target.isCancelled s.machine.target then throw .cancelled else pure () :
    Pass τ Unit)).run.run s = _
  split <;> rfl

theorem couples_onMemo {f g : Memo → Memo}
    (h : ∀ {memo memo'}, L.memos memo memo' → L.memos (f memo) (g memo')) :
    (L.coupling excuses).Couples (onMemo f) (onMemo g) :=
  fun _ _ hst => .inr ⟨rfl, hst.machine, h hst.memo, hst.breaks, hst.disabled⟩

theorem couples_reach
    (hreach : ∀ {b b'}, L.breaks b b' → ∀ line, L.breaks (line :: b) (line :: b')) (line : Nat) :
    (L.coupling excuses).Couples
      (modify fun s => { s with breaks := line :: s.breaks })
      (modify fun s => { s with breaks := line :: s.breaks }) :=
  fun _ _ hst => .inr ⟨rfl, hst.machine, hst.memo, hreach hst.breaks line, hst.disabled⟩

theorem couples_disable (line : Nat) :
    (L.coupling excuses).Couples
      (modify fun s => { s with disabled := line :: s.disabled })
      (modify fun s => { s with disabled := line :: s.disabled }) :=
  fun _ _ hst => .inr ⟨rfl, hst.machine, hst.memo, hst.breaks, congrArg (line :: ·) hst.disabled⟩

section Steps

include hL

theorem couples_checkCancelled :
    (L.coupling excuses).Couples (checkCancelled S) (checkCancelled T) := by
  intro s t hst
  rw [run_checkCancelled, run_checkCancelled, ← hL.isCancelled hst.machine]
  split
  · exact .inr ⟨rfl, hst⟩
  · exact .inr ⟨rfl, hst⟩

theorem couples_onStore (act : StateM Store α) :
    (L.coupling excuses).Couples (onStore act) (onStore act) :=
  couples_onMachine (hL.onStore act)

theorem couples_setSymbol (name : String) (v : Value) :
    (L.coupling excuses).Couples (setSymbol name v) (setSymbol name v) :=
  couples_onStore hL _

theorem couples_described (v : Value) :
    (L.coupling excuses).Couples (described v) (described v) := by
  intro s t hst
  have hstore : s.machine.store = t.machine.store := (hL.onStore get _ _ hst.machine).1
  exact .inr ⟨congrArg (fun store : Store => Except.ok (store.describe v)) hstore, hst⟩

/-! ## Formulas -/

theorem couples_value? (f : Formula) :
    (L.coupling excuses).Couples (value? S f) (value? T f) := by
  refine (couples_onMachine (Evaluation.inStep_attempt hL.host none f.parsed)).bind fun r => ?_
  cases r with
  | ok v => exact couples_pure v
  | error m => exact couples_throw _

theorem couples_int? (f : Formula) :
    (L.coupling excuses).Couples (int? S f) (int? T f) :=
  (couples_value? hL f).bind fun _ => couples_pure _

theorem couples_intOr (absent : Int64) (f? : Option Formula) :
    (L.coupling excuses).Couples (intOr S absent f?) (intOr T absent f?) := by
  cases f? with
  | none => exact couples_pure _
  | some f => exact (couples_int? hL f).bind fun _ => couples_pure _

theorem couples_holds (f : Formula) :
    (L.coupling excuses).Couples (holds S f) (holds T f) :=
  (couples_value? hL f).bind fun _ => couples_pure _

theorem couples_text? (f : Formula) :
    (L.coupling excuses).Couples (text? S f) (text? T f) := by
  refine (couples_value? hL f).bind fun v? => ?_
  cases v? with
  | some v => exact (couples_described hL v).bind fun _ => couples_pure _
  | none => exact couples_pure _

theorem couples_label? (f : Formula) :
    (L.coupling excuses).Couples (label? S f) (label? T f) := by
  unfold label?
  split
  · exact couples_text? hL f
  · exact couples_pure _

omit hL in
theorem couples_onFormula {step : Formula → Pass τ (Option String)}
    {step' : Formula → Pass τ' (Option String)}
    (h : ∀ f, (L.coupling excuses).Couples (step f) (step' f)) (f? : Option Formula) :
    (L.coupling excuses).Couples (onFormula step f?) (onFormula step' f?) := by
  cases f? with
  | none => exact couples_pure _
  | some f => exact h f

theorem couples_condition (f? : Option Formula) :
    (L.coupling excuses).Couples (condition S f?) (condition T f?) := by
  cases f? with
  | none => exact couples_pure _
  | some f => exact couples_holds hL f

/-! ## Reads -/

theorem couples_readMemory (address : UInt64) (size : Nat) :
    (L.coupling excuses).Couples (readMemory S address size) (readMemory T address size) := by
  unfold readMemory
  rw [hL.config]
  exact couples_onMachine (hL.read _ _)

theorem couples_readPointer (address : UInt64) :
    (L.coupling excuses).Couples (readPointer S address) (readPointer T address) := by
  unfold readPointer
  rw [hL.config]
  exact (couples_readMemory hL _ _).bind fun _ => couples_pure _

theorem couples_symbolAddress? (symbol? : Option String) :
    (L.coupling excuses).Couples (symbolAddress? S symbol?) (symbolAddress? T symbol?) := by
  cases symbol? with
  | none => exact couples_pure _
  | some name => exact couples_onMachine (hL.symbolAddress name)

theorem couples_offset? (f? : Option Formula) :
    (L.coupling excuses).Couples (offset? S f?) (offset? T f?) := by
  cases f? with
  | none => exact couples_pure _
  | some f => exact couples_int? hL f

theorem couples_startAddress (source : Source) :
    (L.coupling excuses).Couples (startAddress S source) (startAddress T source) := by
  refine (couples_symbolAddress? hL _).bind fun base? => ?_
  cases base? with
  | none => exact couples_pure _
  | some base =>
    refine (couples_offset? hL _).bind fun offset? => ?_
    cases offset? with
    | none => exact couples_pure _
    | some offset =>
      dsimp only
      split
      · exact couples_readPointer hL _
      · exact couples_pure _

theorem couples_followLinks (type : ElementType) (order : ByteOrder) (next : Int64) (count : Nat) :
    ∀ (found : Array Value) (address : UInt64),
      (L.coupling excuses).Couples (followLinks S type order next found count address)
        (followLinks T type order next found count address) := by
  induction count with
  | zero => exact fun found _ => couples_pure found
  | succ count ih =>
    intro found address
    rw [followLinks, followLinks]
    split
    · exact couples_pure _
    · refine (couples_readMemory hL _ _).bind fun bytes? => ?_
      cases bytes? with
      | none => exact couples_pure _
      | some bytes =>
        refine (couples_readPointer hL _).bind fun link? => ?_
        cases link? with
        | none => exact couples_pure _
        | some link => exact ih _ link

theorem couples_bind (name : String) (v : Value) :
    (L.coupling excuses).Couples (bind name v) (bind name v) := by
  unfold bind
  split
  · exact couples_pure _
  · exact couples_setSymbol hL name v

theorem couples_bindArray (name : String) (items : Array Value) :
    (L.coupling excuses).Couples (bindArray name items) (bindArray name items) := by
  unfold bindArray
  split
  · exact couples_pure _
  · exact (couples_onStore hL _).bind fun _ => couples_pure _

theorem couples_fetch (r : Read) :
    (L.coupling excuses).Couples (fetch S r) (fetch T r) := by
  refine (couples_startAddress hL _).bind fun address? => ?_
  cases address? with
  | none => exact couples_pure _
  | some address =>
    refine (couples_intOr hL 1 r.count?).bind fun requested => ?_
    rw [hL.config]
    refine (couples_readMemory hL _ _).bind fun bytes? => ?_
    cases bytes? with
    | none => exact couples_pure _
    | some bytes =>
      dsimp only
      split
      · exact (couples_bind hL _ _).bind fun _ => couples_pure _
      · exact (couples_bindArray hL _ _).bind fun _ => couples_pure _

theorem couples_listCount (r : ListRead) :
    (L.coupling excuses).Couples (listCount S r) (listCount T r) := by
  unfold listCount
  rw [hL.config]
  split
  · exact (couples_int? hL _).bind fun _ => couples_pure _
  · exact couples_pure _

theorem couples_fetchList (r : ListRead) :
    (L.coupling excuses).Couples (fetchList S r) (fetchList T r) := by
  refine (couples_startAddress hL _).bind fun start? => ?_
  cases start? with
  | none => exact couples_pure _
  | some start =>
    refine (couples_listCount hL r).bind fun count => ?_
    cases r.next? with
    | some next =>
      refine (couples_int? hL next).bind fun next? => ?_
      cases next? with
      | none => exact couples_pure _
      | some next =>
        exact (couples_followLinks hL _ _ _ _ _ _).bind fun items =>
          (couples_bindArray hL _ _).bind fun _ => couples_pure _
    | none =>
      rw [hL.config]
      refine (couples_readMemory hL _ _).bind fun bytes? => ?_
      cases bytes? with
      | none => exact couples_pure _
      | some bytes => exact (couples_bindArray hL _ _).bind fun _ => couples_pure _

section Marks

variable {id id' : Nat} (hid : L.ids id id')
include hid

theorem couples_isDone : (L.coupling excuses).Couples (isDone id) (isDone id') :=
  fun _ _ hst => .inr ⟨congrArg Except.ok (hL.contains_done hst.memo hid), hst⟩

theorem couples_markDone : (L.coupling excuses).Couples (markDone id) (markDone id') :=
  couples_onMemo fun h => hL.insert_done h hid

theorem couples_unlessDone (once : Bool) {x : Pass τ Bool} {y : Pass τ' Bool}
    (hxy : (L.coupling excuses).Couples x y) :
    (L.coupling excuses).Couples (unlessDone id once x) (unlessDone id' once y) := by
  refine (couples_isDone hL hid).bind fun done => ?_
  split
  · exact couples_pure _
  · refine hxy.bind fun read => ?_
    split
    · exact couples_markDone hL hid
    · exact couples_pure _

theorem couples_read (r : Read) :
    (L.coupling excuses).Couples (read S id r) (read T id' r) :=
  couples_unlessDone hL hid _ (couples_fetch hL r)

theorem couples_readList (r : ListRead) :
    (L.coupling excuses).Couples (readList S id r) (readList T id' r) :=
  couples_unlessDone hL hid _ (couples_fetchList hL r)

end Marks

/-! ## Statements -/

theorem couples_variableSize (v : Variable) :
    (L.coupling excuses).Couples (variableSize S v) (variableSize T v) := by
  unfold variableSize
  split
  · exact couples_pure _
  · refine (couples_int? hL _).bind fun n? => ?_
    split
    · split <;> exact couples_pure _
    · exact couples_pure _
  · exact couples_pure _

theorem couples_initialValue (v : Variable) :
    (L.coupling excuses).Couples (initialValue S v) (initialValue T v) := by
  unfold initialValue
  split
  · exact couples_value? hL _
  · exact couples_pure _

theorem couples_declare (v : Variable) :
    (L.coupling excuses).Couples (declare S v) (declare T v) := by
  unfold declare
  split
  · exact couples_pure _
  · refine (couples_initialValue hL v).bind fun value? => ?_
    cases value? with
    | none => exact couples_pure _
    | some value =>
      exact (couples_variableSize hL v).bind fun size => (couples_setSymbol hL _ _).bind fun _ =>
        couples_onMachine (hL.setVariable _ _ _)

theorem couples_values (formulas : List Formula) :
    (L.coupling excuses).Couples (values S formulas) (values T formulas) := by
  induction formulas with
  | nil => exact couples_pure _
  | cons f rest ih => exact (couples_value? hL f).bind fun _ => ih.bind fun _ => couples_pure _

theorem couples_calculate {id id' : Nat} (hid : L.ids id id') (formulas : List Formula) :
    (L.coupling excuses).Couples (calculate S id formulas) (calculate T id' formulas) :=
  (couples_onMemo fun h => hL.erase_results h hid).bind fun _ =>
    (couples_values hL formulas).bind fun results =>
      couples_onMemo fun h => hL.insert_results results h hid

omit hL in
theorem couples_iterate {goesOn : Int64 → Pass τ Bool} {goesOn' : Int64 → Pass τ' Bool}
    {body : Pass τ (List Row)} {body' : Pass τ' (List Row)}
    (hgo : ∀ index, (L.coupling excuses).Couples (goesOn index) (goesOn' index))
    (hbody : (L.coupling excuses).Couples body body') (fuel : Nat) :
    ∀ (index : Int64) (rows : Array Row), (L.coupling excuses).Couples
      (iterate goesOn body fuel index rows) (iterate goesOn' body' fuel index rows) := by
  induction fuel with
  | zero =>
    intro index rows
    exact ((hgo index).bind fun _ => couples_pure _).bind fun _ => couples_pure _
  | succ fuel ih =>
    intro index rows
    rw [iterate, iterate]
    refine (hgo index).bind fun goes => ?_
    split
    · exact hbody.bind fun more => ih _ _
    · exact couples_pure _

theorem couples_test (while? : Option Formula) (otherwise : Bool) :
    (L.coupling excuses).Couples
      (match while? with
        | some condition => holds S condition
        | none => pure otherwise)
      (match while? with
        | some condition => holds T condition
        | none => pure otherwise) := by
  cases while? with
  | some condition => exact couples_holds hL condition
  | none => exact couples_pure _

theorem couples_goesOn (l : Loop) (limit index : Int64) :
    (L.coupling excuses).Couples (goesOn S l limit index) (goesOn T l limit index) := by
  unfold goesOn
  cases l.name? with
  | some name => exact (couples_setSymbol hL name _).bind fun _ => couples_test hL l.while? _
  | none => exact couples_test hL l.while? _

theorem couples_loop (l : Loop) (line : Nat) {body : Pass τ (List Row)}
    {body' : Pass τ' (List Row)} (hbody : (L.coupling excuses).Couples body body') :
    (L.coupling excuses).Couples (loop S l line body) (loop T l line body') := by
  unfold loop
  split
  · refine (couples_intOr hL 0 l.start?).bind fun start =>
      (couples_intOr hL 0 l.limit?).bind fun limit => ?_
    rw [hL.config]
    exact (couples_iterate (couples_goesOn hL l limit) hbody _ _ _).bind fun _ => couples_pure _
  · exact (couples_disable line).bind fun _ => couples_pure _

/-- A statement has the same effect in both passes, if what is below it has. -/
theorem couples_effect {id id' : Nat} (hid : L.ids id id') (line : Nat) (statement : Statement)
    {below : Pass τ (List Row)} {below' : Pass τ' (List Row)}
    (hbelow : (L.coupling excuses).Couples below below') :
    (L.coupling excuses).Couples (effect S id line statement below)
      (effect T id' line statement below') := by
  cases statement with
  | group g =>
    exact (couples_onFormula (couples_text? hL) _).bind fun _ =>
      hbelow.bind fun _ => couples_pure _
  | row r =>
    exact (couples_onFormula (couples_label? hL) _).bind fun _ =>
      (couples_onFormula (couples_label? hL) _).bind fun _ => hbelow.bind fun _ => couples_pure _
  | var v => exact (couples_declare hL v).bind fun _ => hbelow
  | «calc» formulas => exact (couples_calculate hL hid formulas).bind fun _ => hbelow
  | read r => exact (couples_read hL hid r).bind fun _ => hbelow
  | readList r => exact (couples_readList hL hid r).bind fun _ => hbelow
  | list l => exact couples_loop hL l line hbelow
  | breakpoint label? =>
    exact (couples_reach (fun h line => hL.reach line h) line).bind fun _ => hbelow

end Steps

/-! ## Trees -/

mutual
/-- Nodes that are alike run alike, if the extra ones leave no row and keep the
link. -/
theorem couples_runNode (hL : L.Sound S T) {extra : StatementNode → Prop}
    (hextra : ∀ b, extra b → (L.coupling excuses).Couples (pure []) (runNode T b)) :
    ∀ (n' : StatementNode) {n : StatementNode}, n.Alike L.ids extra n' →
      (L.coupling excuses).Couples (runNode S n) (runNode T n')
  | ⟨_, statement, line, condition?, children'⟩, _, h => by
    cases h with
    | node hid hc =>
      rw [runNode, runNode]
      refine (couples_checkCancelled hL).bind fun _ =>
        (couples_condition hL condition?).bind fun runs => ?_
      split
      · exact couples_effect hL hid line statement (couples_runNodes hL hextra children' hc)
      · exact couples_pure _

theorem couples_runNodes (hL : L.Sound S T) {extra : StatementNode → Prop}
    (hextra : ∀ b, extra b → (L.coupling excuses).Couples (pure []) (runNode T b)) :
    ∀ (ns' : List StatementNode) {ns : List StatementNode},
      StatementNode.AlikeAll L.ids extra ns ns' →
      (L.coupling excuses).Couples (runNodes S ns) (runNodes T ns')
  | [], _, h => by
    cases h
    exact couples_pure []
  | n' :: ns', ns, h => by
    rw [runNodes]
    cases h with
    | cons hn hns =>
      rw [runNodes]
      exact (couples_runNode hL hextra n' hn).bind fun _ =>
        (couples_runNodes hL hextra ns' hns).bind fun _ => couples_pure _
    | extra hb hns =>
      -- The first pass takes no step for an extra node.
      have hnone : runNodes S ns = (do
          let rows ← (pure [] : Pass τ (List Row))
          return rows ++ (← runNodes S ns)) := by
        rw [pure_bind]
        exact (bind_pure _).symm
      rw [hnone]
      exact (hextra n' hb).bind fun _ =>
        (couples_runNodes hL hextra ns' hns).bind fun _ => couples_pure _
end

end Pass
end TargetView
