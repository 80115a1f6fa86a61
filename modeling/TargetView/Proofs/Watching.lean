import TargetView.Proofs.Linking
import TargetView.Proofs.Passes
import TargetView.Proofs.Runs

/-! # Watched passes

To say which statements take effect in a pass, and in which order, the pass is
run on a target that keeps a list of visits: each statement that takes effect,
the state in which it does, and what the target answers to its memory reads.

Apart from the list a watched pass is the pass itself (`Pass.run_watchTree`).
Its own steps change at most what has been answered to the latest visit
(`Watched.noting`), and those of a statement that is no read change no visit at
all (`Watched.still`).  So the visits of a pass are as many as the tree and the
greatest number of iterations allow (`View.length_visits_le`).
-/
namespace TargetView

open Contract

variable {τ α β : Type}

/-- A statement that takes effect in a pass. -/
structure Visit (τ : Type) where
  setting : Setting τ
  id : Nat
  statement : Statement
  /-- The state in which it takes effect. -/
  state : PassState τ
  /-- The answers to its memory reads. -/
  reads : List (Option (List UInt8)) := []

namespace Visit

/-- The visit after more memory reads. -/
def noting (v : Visit τ) (more : List (Option (List UInt8))) : Visit τ :=
  { v with reads := v.reads ++ more }

theorem noting_nil (v : Visit τ) : v.noting [] = v := by
  rw [noting, List.append_nil]

theorem noting_noting (v : Visit τ) (more rest : List (Option (List UInt8))) :
    (v.noting more).noting rest = v.noting (more ++ rest) := by
  rw [noting, noting, noting, List.append_assoc]

end Visit

/-- The state of a target, with the visits so far, latest first. -/
structure Watched (τ : Type) where
  state : τ
  visits : List (Visit τ)

namespace Watched

/-- Acts on the target alone. -/
def onState (act : StateM τ α) : StateM (Watched τ) α := fun w =>
  let (result, state) := act.run w.state
  (result, ⟨state, w.visits⟩)

/-- Reads memory for the latest visit. -/
def noteRead (act : StateM τ (Option (List UInt8))) :
    StateM (Watched τ) (Option (List UInt8)) := fun w =>
  let (bytes?, state) := act.run w.state
  (bytes?, ⟨state, w.visits.modifyHead (·.noting [bytes?])⟩)

end Watched

open Watched (onState noteRead)

/-- The target that keeps the visits. -/
def Target.watched (t : Target τ) : Target (Watched τ) where
  read address size := noteRead (t.read address size)
  setVariable name size v := onState (t.setVariable name size v)
  clearVariables := onState t.clearVariables
  readRegister name := onState (t.readRegister name)
  writeRegister name bits := onState (t.writeRegister name bits)
  symbolAddress name := onState (t.symbolAddress name)
  bytesUsed := onState t.bytesUsed
  isCancelled w := t.isCancelled w.state

namespace Machine

/-- The machine in front of a target that keeps visits. -/
def watched (m : Machine τ) (visits : List (Visit τ)) : Machine (Watched τ) :=
  ⟨m.store, ⟨m.target, visits⟩, m.registers⟩

/-- The machine without the visits. -/
def unwatched (m : Machine (Watched τ)) : Machine τ := ⟨m.store, m.target.state, m.registers⟩

/-- Acts on the machine and keeps the visits. -/
def onUnwatched (act : StateM (Machine τ) α) : StateM (Machine (Watched τ)) α := fun m =>
  let (result, m') := act.run m.unwatched
  (result, m'.watched m.target.visits)

end Machine

/-- The host in front of a target that keeps visits. -/
def Host.watched (h : Host (Machine τ)) : Host (Machine (Watched τ)) where
  symbolExists scope name := Machine.onUnwatched (h.symbolExists scope name)
  readSymbol scope name := Machine.onUnwatched (h.readSymbol scope name)
  writeSymbol scope name v := Machine.onUnwatched (h.writeSymbol scope name v)
  isArray ref := Machine.onUnwatched (h.isArray ref)
  newObject := Machine.onUnwatched h.newObject
  newArray := Machine.onUnwatched h.newArray
  readKey ref key := Machine.onUnwatched (h.readKey ref key)
  writeKey ref key v := Machine.onUnwatched (h.writeKey ref key v)
  resolvePath path := Machine.onUnwatched (h.resolvePath path)
  bytesUsed := Machine.onUnwatched h.bytesUsed
  dispatch fn args := Machine.onUnwatched (h.dispatch fn args)
  memoryInUse args := Machine.onUnwatched (h.memoryInUse args)
  answerFor fn name := Machine.onUnwatched (h.answerFor fn name)
  hasRegisters := Machine.onUnwatched h.hasRegisters
  registerValue name := Machine.onUnwatched (h.registerValue name)
  formatValue spec v := Machine.onUnwatched (h.formatValue spec v)

/-- The setting of a pass that is watched. -/
def Setting.watched (S : Setting τ) : Setting (Watched τ) where
  target := S.target.watched
  config := S.config
  formatter := S.formatter
  observer _ := (Pass.host S).watched

namespace PassState

/-- The visits so far, latest first. -/
def visits (w : PassState (Watched τ)) : List (Visit τ) := w.machine.target.visits

/-- The state of a watched pass. -/
def watched (s : PassState τ) (visits : List (Visit τ)) : PassState (Watched τ) :=
  ⟨s.machine.watched visits, s.memo, s.breaks, s.disabled⟩

/-- The state of the pass that is watched. -/
def unwatched (w : PassState (Watched τ)) : PassState τ :=
  ⟨w.machine.unwatched, w.memo, w.breaks, w.disabled⟩

end PassState

namespace Pass

variable (S : Setting τ)

/-- A statement is about to take effect. -/
def notice (id : Nat) (statement : Statement) : Pass (Watched τ) Unit :=
  modify fun w => w.unwatched.watched (⟨S, id, statement, w.unwatched, []⟩ :: w.visits)

mutual
/-- Runs a node and keeps its visit, and those of the nodes below it. -/
def watchNode : StatementNode → Pass (Watched τ) (List Row)
  | ⟨id, statement, line, condition?, children⟩ => do
    checkCancelled S.watched
    if ← condition S.watched condition? then
      notice S id statement
      effect S.watched id line statement (watchNodes children)
    else return hidden statement line

/-- Runs some nodes, one after the other, and keeps their visits. -/
def watchNodes : List StatementNode → Pass (Watched τ) (List Row)
  | [] => pure []
  | n :: rest => do
    let rows ← watchNode n
    return rows ++ (← watchNodes rest)
end

/-- Runs a tree and keeps the visits of its nodes. -/
def watchTree (tree : StatementTree) : Pass (Watched τ) (List Row) :=
  match tree.root? with
  | some root => watchNode S root
  | none => pure []

end Pass

/-- The visits of a pass, in order. -/
def View.visits (S : Setting τ) (view : View) (m : Machine τ) : List (Visit τ) :=
  ((Pass.watchTree S view.tree).run.run ((view.start S m).watched [])).2.visits.reverse

/-! ## The pass that is watched -/

namespace Watched

/-- The machine is the same apart from the visits, of which something holds. -/
structure Tracks (P : List (Visit τ) → Prop) (m : Machine (Watched τ)) (m' : Machine τ) :
    Prop where
  unwatched : m.unwatched = m'
  visits : P m.target.visits

variable {P : List (Visit τ) → Prop}

theorem inStep_onUnwatched (act : StateM (Machine τ) α) :
    InStep (Tracks P) (Machine.onUnwatched act) act := by
  rintro m _ ⟨rfl, hP⟩
  exact ⟨rfl, rfl, hP⟩

theorem inStep_host (S : Setting τ) :
    Host.InStep (Tracks P) (Pass.host S.watched) (Pass.host S) where
  symbolExists _ _ := inStep_onUnwatched _
  readSymbol _ _ := inStep_onUnwatched _
  writeSymbol _ _ _ := inStep_onUnwatched _
  isArray _ := inStep_onUnwatched _
  newObject := inStep_onUnwatched _
  newArray := inStep_onUnwatched _
  readKey _ _ := inStep_onUnwatched _
  writeKey _ _ _ := inStep_onUnwatched _
  resolvePath _ := inStep_onUnwatched _
  bytesUsed := inStep_onUnwatched _
  dispatch _ _ := inStep_onUnwatched _
  memoryInUse _ := inStep_onUnwatched _
  answerFor _ _ := inStep_onUnwatched _
  hasRegisters := inStep_onUnwatched _
  registerValue _ := inStep_onUnwatched _
  formatValue _ _ := inStep_onUnwatched _

/-- The link between a watched pass and the pass itself. -/
def link : Pass.Link (Watched τ) τ where
  machines := Tracks fun _ => True
  memos := Eq
  breaks := Eq
  ids := Eq

/-- A computation that is watched does the same. -/
def coupling : Coupling Abort (PassState (Watched τ)) (PassState τ) :=
  link.coupling fun _ _ => False

theorem link_sound (S : Setting τ) : link.Sound S.watched S where
  config := rfl
  host := inStep_host S
  onStore act := by
    rintro m _ ⟨rfl, -⟩
    exact ⟨rfl, rfl, trivial⟩
  read address size := by
    rintro m _ ⟨rfl, -⟩
    exact ⟨rfl, rfl, trivial⟩
  symbolAddress name := by
    rintro m _ ⟨rfl, -⟩
    exact ⟨rfl, rfl, trivial⟩
  setVariable name size v := by
    rintro m _ ⟨rfl, -⟩
    exact ⟨rfl, rfl, trivial⟩
  isCancelled := by
    rintro m _ ⟨rfl, -⟩
    rfl
  toMemoSteps := .refl
  reach line h := congrArg (line :: ·) h

theorem corresponds_iff {w : PassState (Watched τ)} {s : PassState τ} :
    coupling.Corresponds w s ↔ w.unwatched = s := by
  obtain ⟨m, memo, breaks, disabled⟩ := s
  constructor
  · rintro ⟨hmachine, hmemo, hbreaks, hdisabled⟩
    rw [PassState.unwatched, hmachine.unwatched, hmemo, hbreaks, hdisabled]
  · rintro ⟨⟩
    exact ⟨⟨rfl, trivial⟩, rfl, rfl, rfl⟩

theorem run_unwatched {x : Pass (Watched τ) α} {y : Pass τ α} (h : coupling.Couples x y)
    (w : PassState (Watched τ)) :
    y.run.run w.unwatched = ((x.run.run w).1, (x.run.run w).2.unwatched) := by
  rcases h w w.unwatched (corresponds_iff.mpr rfl) with ⟨_, _, -, hex⟩ | ⟨hresult, hstate⟩
  · exact hex.elim
  · exact Prod.ext hresult.symm (corresponds_iff.mp hstate).symm

/-! ## What happens to the visits -/

/-- More has been answered to the latest visit, and there is no other change. -/
def Noted (w w' : PassState (Watched τ)) : Prop :=
  ∃ more, w'.visits = w.visits.modifyHead (·.noting more)

theorem noted_of_visits_eq {w w' : PassState (Watched τ)} (h : w'.visits = w.visits) :
    Noted w w' := by
  refine ⟨[], h.trans ?_⟩
  rw [funext Visit.noting_nil]
  exact (congrFun List.modifyHead_id w.visits).symm

theorem Noted.trans {w w' w'' : PassState (Watched τ)} (h : Noted w w') (h' : Noted w' w'') :
    Noted w w'' := by
  obtain ⟨more, hmore⟩ := h
  obtain ⟨rest, hrest⟩ := h'
  refine ⟨more ++ rest, ?_⟩
  rw [hrest, hmore, List.modifyHead_modifyHead]
  exact congrArg (List.modifyHead · w.visits) (funext fun v => v.noting_noting more rest)

/-- Memory may be read for the latest visit. -/
def noting : Contract Abort (PassState (Watched τ)) where
  Becomes := Noted
  Excuses _ _ := True
  refl _ := noted_of_visits_eq rfl
  trans := Noted.trans

/-- The visits stay as they are, and so do the reads that are done. -/
def still : Contract Abort (PassState (Watched τ)) where
  Becomes w w' := w'.visits = w.visits ∧ w'.memo.done = w.memo.done
  Excuses _ _ := True
  refl _ := ⟨rfl, rfl⟩
  trans h h' := ⟨h'.1.trans h.1, h'.2.trans h.2⟩

theorem noting_of_still {x : Pass (Watched τ) α} (h : still.Allows x) : noting.Allows x :=
  fun w _ => ⟨trivial, noted_of_visits_eq (h w trivial).2.1.1, (h w trivial).2.2⟩

/-- No step but a memory read and the mark of a read changes the visits or the
reads that are done. -/
theorem handles_still (S : Setting τ) : S.watched.Handles still where
  checkCancelled w := Pass.keeps_checkCancelled fun _ => trivial
  value? f w := by
    obtain ⟨-, -, hvisits⟩ :=
      Evaluation.inStep_attempt (inStep_host (P := (· = w.visits)) S) none f.parsed
        w.machine w.machine.unwatched ⟨rfl, rfl⟩
    exact Pass.keeps_value? fun _ => ⟨trivial, ⟨hvisits, rfl⟩, fun _ _ => trivial⟩
  onStore _ _ _ := ⟨trivial, ⟨rfl, rfl⟩, trivial⟩
  symbolAddress _ _ _ := ⟨trivial, ⟨rfl, rfl⟩, trivial⟩
  setVariable _ _ _ _ _ := ⟨trivial, ⟨rfl, rfl⟩, trivial⟩
  onResults _ _ _ := ⟨trivial, ⟨rfl, rfl⟩, trivial⟩
  reach _ _ _ := ⟨trivial, ⟨rfl, rfl⟩, trivial⟩
  disable _ _ _ := ⟨trivial, ⟨rfl, rfl⟩, trivial⟩

theorem honours_noting (S : Setting τ) : S.watched.Honours noting where
  toHandles := (handles_still S).imp noting_of_still
  read _ _ _ _ := ⟨trivial, ⟨[_], rfl⟩, trivial⟩
  markDone _ _ _ := ⟨trivial, noted_of_visits_eq rfl, trivial⟩

end Watched

/-! ## How many visits there are -/

/-- How often what is below a statement may run, if no loop has more than so many
rounds. -/
def Statement.repetitions (most : Nat) : Statement → Nat
  | .list _ => most
  | _ => 1

namespace StatementNode

mutual
/-- How many statements may take effect from this node downwards. -/
def work (most : Nat) : StatementNode → Nat
  | ⟨_, statement, _, _, children⟩ => statement.repetitions most * workAll most children + 1

/-- How many statements may take effect from some nodes downwards. -/
def workAll (most : Nat) : List StatementNode → Nat
  | [] => 0
  | n :: rest => n.work most + workAll most rest
end

end StatementNode

/-- How many statements of a tree may take effect in a pass. -/
def StatementTree.work (most : Nat) (t : StatementTree) : Nat := t.root?.elim 0 (·.work most)

namespace Watched

/-- The first computation is the second one watched, with no more than so many
new visits. -/
structure Adds (k : Nat) (x : Pass (Watched τ) α) (y : Pass τ α) : Prop where
  couples : coupling.Couples x y
  length_le : ∀ w, (x.run.run w).2.visits.length ≤ w.visits.length + k

namespace Adds

variable {j k : Nat} {x : Pass (Watched τ) α} {y : Pass τ α}

theorem mono (h : Adds j x y) (hjk : j ≤ k) : Adds k x y :=
  ⟨h.couples, fun w => Nat.le_trans (h.length_le w) (Nat.add_le_add_left hjk _)⟩

/-- What a pass does by itself adds no visit. -/
theorem own (hc : coupling.Couples x y) (hn : noting.Allows x) : Adds 0 x y := by
  refine ⟨hc, fun w => ?_⟩
  obtain ⟨more, hmore⟩ := (hn w trivial).2.1
  rw [hmore, List.length_modifyHead]
  exact Nat.le_refl _

theorem pure (a : α) : Adds 0 (Pure.pure a : Pass (Watched τ) α) (Pure.pure a) :=
  own (Coupling.couples_pure a) (allows_pure a)

theorem bind {f : α → Pass (Watched τ) β} {g : α → Pass τ β} (hx : Adds j x y)
    (hf : ∀ a, Adds k (f a) (g a)) : Adds (j + k) (x >>= f) (y >>= g) := by
  refine ⟨hx.couples.bind fun a => (hf a).couples, fun w => ?_⟩
  have hfirst := hx.length_le w
  rcases hrun : x.run.run w with ⟨e | a, w'⟩
  · rw [run_bind_of_error hrun]
    rw [hrun] at hfirst
    exact Nat.le_trans hfirst (Nat.add_le_add_left (Nat.le_add_right j k) _)
  · rw [run_bind_of_ok hrun]
    rw [hrun] at hfirst
    have hsecond := (hf a).length_le w'
    dsimp only at hfirst
    omega

/-- What follows a step of the pass itself. -/
theorem after {f : α → Pass (Watched τ) β} {g : α → Pass τ β} (hx : Adds 0 x y)
    (hf : ∀ a, Adds k (f a) (g a)) : Adds k (x >>= f) (y >>= g) :=
  (hx.bind hf).mono (Nat.le_of_eq (Nat.zero_add k))

theorem map {f : α → β} (hx : Adds k x y) : Adds k (do return f (← x)) (do return f (← y)) :=
  hx.bind fun _ => pure _

end Adds

variable {S : Setting τ} {k : Nat} {x : Pass (Watched τ) (List Row)} {y : Pass τ (List Row)}

theorem adds_iterate {goesOn : Int64 → Pass (Watched τ) Bool} {goesOn' : Int64 → Pass τ Bool}
    (hgo : ∀ index, Adds 0 (goesOn index) (goesOn' index)) (hbody : Adds k x y) (fuel : Nat) :
    ∀ (index : Int64) (rows : Array Row),
      Adds (fuel * k) (Pass.iterate goesOn x fuel index rows)
        (Pass.iterate goesOn' y fuel index rows) := by
  induction fuel with
  | zero =>
    intro index rows
    rw [Nat.zero_mul]
    exact ((hgo index).bind fun _ => .pure _).bind fun _ => .pure _
  | succ fuel ih =>
    intro index rows
    rw [Pass.iterate, Pass.iterate]
    refine (hgo index).after fun goes => ?_
    split
    · rw [Nat.succ_mul, Nat.add_comm]
      exact hbody.bind fun more => ih _ _
    · exact (Adds.pure _).mono (Nat.zero_le _)

theorem adds_loop (l : Loop) (line : Nat) (hbelow : Adds k x y) :
    Adds (S.config.maxIterations * k) (Pass.loop S.watched l line x) (Pass.loop S l line y) := by
  have hint (f? : Option Formula) : Adds 0 (Pass.intOr S.watched 0 f?) (Pass.intOr S 0 f?) :=
    .own (Pass.couples_intOr (link_sound S) 0 f?)
      (Pass.allows_intOr (honours_noting S).toHandles 0 f?)
  have hgo (limit index : Int64) :
      Adds 0 (Pass.goesOn S.watched l limit index) (Pass.goesOn S l limit index) :=
    .own (Pass.couples_goesOn (link_sound S) l limit index)
      (Pass.allows_goesOn (honours_noting S).toHandles l limit index)
  unfold Pass.loop
  split
  · exact (hint l.start?).after fun start => (hint l.limit?).after fun limit =>
      (adds_iterate (hgo limit) hbelow _ _ _).map
  · have hdisable := Adds.own (Pass.couples_disable line) ((honours_noting S).disable line)
    exact (hdisable.bind fun _ => .pure _).mono (Nat.zero_le _)

theorem adds_effect (id line : Nat) (statement : Statement) (hbelow : Adds k x y) :
    Adds (statement.repetitions S.config.maxIterations * k)
      (Pass.effect S.watched id line statement x) (Pass.effect S id line statement y) := by
  have hL := link_sound S
  have hS := honours_noting S
  -- What is below a statement other than a loop runs once.
  have honce : Adds (1 * k) x y := hbelow.mono (Nat.le_of_eq (Nat.one_mul k).symm)
  cases statement with
  | list l => exact adds_loop l line hbelow
  | group g =>
    have hvalue := Adds.own (Pass.couples_onFormula (Pass.couples_text? hL) g.value?)
      (Pass.allows_onFormula (Pass.allows_text? hS.toHandles) g.value?)
    exact hvalue.after fun _ => honce.map
  | row r =>
    have hlabel (f? : Option Formula) :=
      Adds.own (Pass.couples_onFormula (Pass.couples_label? hL) f?)
        (Pass.allows_onFormula (Pass.allows_label? hS.toHandles) f?)
    exact (hlabel r.property?).after fun _ => (hlabel r.value?).after fun _ => honce.map
  | var v =>
    have hdeclare := Adds.own (Pass.couples_declare hL v) (Pass.allows_declare hS.toHandles v)
    exact hdeclare.after fun _ => honce
  | «calc» formulas =>
    have hcalculate : Adds 0 (Pass.calculate S.watched id formulas)
        (Pass.calculate S id formulas) :=
      .own (Pass.couples_calculate hL rfl formulas) (Pass.allows_calculate hS.toHandles id formulas)
    exact hcalculate.after fun _ => honce
  | read r =>
    have hread : Adds 0 (Pass.read S.watched id r) (Pass.read S id r) :=
      .own (Pass.couples_read hL rfl r) (Pass.allows_read hS id r)
    exact hread.after fun _ => honce
  | readList r =>
    have hread : Adds 0 (Pass.readList S.watched id r) (Pass.readList S id r) :=
      .own (Pass.couples_readList hL rfl r) (Pass.allows_readList hS id r)
    exact hread.after fun _ => honce
  | breakpoint label? =>
    have hreach := Adds.own (Pass.couples_reach (fun h line => hL.reach line h) line)
      (hS.reach line)
    exact hreach.after fun _ => honce

theorem adds_notice (id : Nat) (statement : Statement) :
    Adds 1 (Pass.notice S id statement) (pure ()) where
  couples w s h := by
    obtain rfl := corresponds_iff.mp h
    exact .inr ⟨rfl, corresponds_iff.mpr rfl⟩
  length_le _ := Nat.le_refl _

mutual
/-- A watched node does what the node does, and has no more visits than it may. -/
theorem adds_watchNode (S : Setting τ) : ∀ n : StatementNode,
    Adds (n.work S.config.maxIterations) (Pass.watchNode S n) (Pass.runNode S n)
  | ⟨id, statement, line, condition?, children⟩ => by
    have hcheck := Adds.own (Pass.couples_checkCancelled (link_sound S))
      (honours_noting S).checkCancelled
    have hcondition := Adds.own (Pass.couples_condition (link_sound S) condition?)
      (Pass.allows_condition (honours_noting S).toHandles condition?)
    rw [Pass.watchNode, Pass.runNode, StatementNode.work]
    refine hcheck.after fun _ => hcondition.after fun runs => ?_
    split
    · have heffect := adds_effect (S := S) id line statement (adds_watchNodes S children)
      rw [Nat.add_comm, ← pure_bind () fun _ => Pass.effect S id line statement _]
      exact (adds_notice id statement).bind fun _ => heffect
    · exact (Adds.pure _).mono (Nat.zero_le _)

theorem adds_watchNodes (S : Setting τ) : ∀ ns : List StatementNode,
    Adds (StatementNode.workAll S.config.maxIterations ns) (Pass.watchNodes S ns)
      (Pass.runNodes S ns)
  | [] => by
    rw [Pass.watchNodes, Pass.runNodes, StatementNode.workAll]
    exact .pure []
  | n :: rest => by
    rw [Pass.watchNodes, Pass.runNodes, StatementNode.workAll]
    exact (adds_watchNode S n).bind fun _ => (adds_watchNodes S rest).map
end

theorem adds_watchTree (S : Setting τ) (tree : StatementTree) :
    Adds (tree.work S.config.maxIterations) (Pass.watchTree S tree) (Pass.runTree S tree) := by
  obtain ⟨root?⟩ := tree
  cases root? with
  | none => exact .pure []
  | some root => exact adds_watchNode S root

end Watched

/-- **A watched pass is the pass itself.** -/
theorem View.run_watchTree (S : Setting τ) (view : View) (m : Machine τ) :
    let watched := (Pass.watchTree S view.tree).run.run ((view.start S m).watched [])
    (Pass.runTree S view.tree).run.run (view.start S m) = (watched.1, watched.2.unwatched) :=
  Watched.run_unwatched (Watched.adds_watchTree S view.tree).couples ((view.start S m).watched [])

/-- In a pass no more statements take effect than the tree and the greatest number
of iterations allow. -/
theorem View.length_visits_le (S : Setting τ) (view : View) (m : Machine τ) :
    (view.visits S m).length ≤ view.tree.work S.config.maxIterations := by
  have hlength := (Watched.adds_watchTree S view.tree).length_le ((view.start S m).watched [])
  rw [View.visits, List.length_reverse]
  exact Nat.le_trans hlength (Nat.le_of_eq (Nat.zero_add _))

end TargetView
