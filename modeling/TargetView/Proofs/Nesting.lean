import TargetView.Proofs.Correspondence
import TargetView.Proofs.Derivation
import TargetView.Proofs.Layout
import TargetView.Proofs.Lossless

/-! # How nodes enclose their operands

In a text without a syntax error the span of a node reaches over the spans of
its operands, and these do not overlap and stand in the order of the text
(`Expr.IsNested`).  Error recovery breaks this, since a node may end in front of
a token that has not been taken; so the proof goes from an accepted state behind
a call, like the one for derivations.  What carries it is that the tokens ahead
are in order, and that what has been read ends before them (`Parser.Read`).
-/
namespace TargetView

/-- The spans lie in another one, one behind the other. -/
structure Span.Encloses (outer : Span) (inners : List Span) : Prop where
  covers : ∀ s ∈ inners, outer.start ≤ s.start ∧ s.stop ≤ outer.stop
  apart : inners.Pairwise fun s t => s.stop ≤ t.start

namespace Expr

/-- The operands of a node, from left to right.  What stands before a member
access without a name is no operand, nor is the name of an intrinsic. -/
def operands : Expr → List Expr
  | number .. | text .. | ident .. | malformed _ | unnamed .. => []
  | member base _ _ => [base]
  | index base key _ => [base, key]
  | unary _ operand _ => [operand]
  | binary _ left right _ => [left, right]
  | conditional cond yes no _ => [cond, yes, no]
  | assign _ target value _ => [target, value]
  | update _ _ target _ => [target]
  | call callee args _ => callee :: args
  | intrinsic _ _ args _ => args

/-- The node encloses its operands. -/
def IsNested (e : Expr) : Prop := e.span.Encloses (e.operands.map span)

theorem isNested_of_nil {e : Expr} (h : e.operands = []) : e.IsNested := by
  rw [IsNested, h]
  exact ⟨nofun, .nil⟩

theorem isNested_of_one {e operand : Expr} (h : e.operands = [operand])
    (hstart : e.span.start ≤ operand.span.start) (hstop : operand.span.stop ≤ e.span.stop) :
    e.IsNested := by
  rw [IsNested, h]
  exact ⟨List.forall_mem_singleton.mpr ⟨hstart, hstop⟩, List.pairwise_singleton _ _⟩

theorem isNested_of_two {e left right : Expr} (h : e.operands = [left, right])
    (hstart : e.span.start ≤ left.span.start) (hleft : left.span.start ≤ left.span.stop)
    (happart : left.span.stop ≤ right.span.start) (hright : right.span.start ≤ right.span.stop)
    (hstop : right.span.stop ≤ e.span.stop) : e.IsNested := by
  rw [IsNested, h]
  refine ⟨List.forall_mem_cons.mpr ⟨⟨hstart, ?_⟩, List.forall_mem_singleton.mpr ⟨?_, hstop⟩⟩, ?_⟩
  · omega
  · omega
  · exact List.pairwise_pair.mpr happart

end Expr

namespace Parser

/-! ### Tokens in order -/

/-- Each span ends before the next one starts. -/
def InOrder (spans : List Span) : Prop :=
  (∀ s ∈ spans, s.start ≤ s.stop) ∧ spans.Pairwise fun s t => s.stop ≤ t.start

namespace State

/-- The spans from the token behind to the mark of the end. -/
def spans (s : State) : List Span :=
  s.cursor.behind :: (s.cursor.ahead.map (·.span) ++ [s.cursor.mark.span])

/-- The tokens are in order. -/
def Ordered (s : State) : Prop := InOrder s.spans

variable {s : State}

theorem ordered_checked (e : Expr) (symbol : String) :
    (s.checked e symbol).Ordered ↔ s.Ordered := by
  unfold checked
  split <;> exact Iff.rfl

@[simp] theorem cursor_checked (e : Expr) (symbol : String) :
    (s.checked e symbol).cursor = s.cursor := by
  unfold checked
  split <;> rfl

theorem cursor_foldl_push (ds : List Diagnostic) : (ds.foldl push s).cursor = s.cursor := by
  induction ds generalizing s with
  | nil => rfl
  | cons d rest ih => exact ih

namespace Ordered

variable (h : s.Ordered)
include h

theorem behind_le : s.cursor.behind.stop ≤ s.current.span.start := by
  refine List.rel_of_pairwise_cons h.2 ?_
  unfold current Cursor.current
  cases s.cursor.ahead with
  | nil => exact List.mem_singleton_self _
  | cons t rest => exact List.mem_cons_self

theorem current_le : s.current.span.start ≤ s.current.span.stop := by
  refine h.1 _ (List.mem_cons_of_mem _ ?_)
  unfold current Cursor.current
  cases s.cursor.ahead with
  | nil => exact List.mem_singleton_self _
  | cons t rest => exact List.mem_cons_self

theorem next : s.next.Ordered := by
  have hspans := h
  unfold Ordered spans at hspans ⊢
  unfold State.next Cursor.next
  cases ha : s.cursor.ahead with
  | nil =>
    rw [ha] at hspans
    dsimp only
    rw [ha]
    exact hspans
  | cons t rest =>
    rw [ha] at hspans
    exact ⟨(List.forall_mem_cons.mp hspans.1).2, (List.pairwise_cons.mp hspans.2).2⟩

end Ordered

/-- A token that has been taken is the one behind. -/
theorem behind_next (hw : s.words ≠ []) : s.next.cursor.behind = s.current.span := by
  unfold next Cursor.next
  unfold current Cursor.current
  unfold words at hw
  cases ha : s.cursor.ahead with
  | nil =>
    rw [ha] at hw
    exact absurd rfl hw
  | cons t rest => rfl

theorem words_ne_nil_of_sees {p : String} (h : s.cursor.sees p = true) : s.words ≠ [] := by
  rw [words_of_sees h]
  exact List.cons_ne_nil _ _

theorem words_ne_nil_of_operator? {α : Type} {ofSymbol? : String → Option α} {op : α}
    (h : s.operator? ofSymbol? = some op) : s.words ≠ [] := by
  obtain ⟨p, -, hw⟩ := words_of_operator? h
  rw [hw]
  exact List.cons_ne_nil _ _

theorem words_ne_nil_of_kind (h : s.current.kind ≠ .end) : s.words ≠ [] := by
  rw [words_of_kind h]
  exact List.cons_ne_nil _ _

/-- A closing bracket that is accepted is the token at the cursor. -/
theorem closed_of_accepted {bracket : String} {opening : Char} {opened : Span}
    (h : (s.closed bracket opening opened).2.Accepted) :
    s.Accepted ∧ s.cursor.sees bracket = true ∧
      s.closed bracket opening opened = (s.current.span, s.next) := by
  refine ⟨(accepted_closed h).1, ?_⟩
  unfold closed at h ⊢
  split
  · next hsees => exact ⟨hsees, rfl⟩
  · next hsees =>
    rw [if_neg hsees] at h
    exact (not_accepted_push (by rfl) h).elim

end State

/-! ### What has been read -/

/-- A tree has been read in front of a state, from an offset on. -/
structure Read (low : Nat) (e : Expr) (s : State) : Prop where
  ordered : s.Ordered
  low_le : low ≤ e.span.start
  proper : e.span.start ≤ e.span.stop
  le_behind : e.span.stop ≤ s.cursor.behind.stop
  nested : ∀ p ∈ e.parts, p.IsNested

/-- Some trees have been read in front of a state, from an offset on. -/
structure ReadAll (low : Nat) (es : List Expr) (s : State) : Prop where
  ordered : s.Ordered
  low_le : low ≤ s.cursor.behind.stop
  within : ∀ e ∈ es,
    low ≤ e.span.start ∧ e.span.start ≤ e.span.stop ∧ e.span.stop ≤ s.cursor.behind.stop
  apart : (es.map Expr.span).Pairwise fun s t => s.stop ≤ t.start
  nested : ∀ p ∈ Expr.partsAll es, p.IsNested

variable {low : Nat} {e : Expr} {s t : State}

/-- A leaf that has been read. -/
theorem Read.leaf (hs : s.Ordered) (hw : s.words ≠ []) (hspan : e.span = s.current.span)
    (hparts : e.parts = [e]) (hoperands : e.operands = []) :
    Read s.current.span.start e s.next where
  ordered := hs.next
  low_le := Nat.le_of_eq (congrArg Span.start hspan).symm
  proper := by
    rw [hspan]
    exact hs.current_le
  le_behind := Nat.le_of_eq (by rw [hspan, State.behind_next hw])
  nested := by
    rw [hparts]
    exact List.forall_mem_singleton.mpr (Expr.isNested_of_nil hoperands)

namespace Read

/-- What a state says beyond its cursor does not matter. -/
theorem of_cursor (h : Read low e s) (hcursor : t.cursor = s.cursor) : Read low e t := by
  refine ⟨?_, h.low_le, h.proper, by rw [hcursor]; exact h.le_behind, h.nested⟩
  have hs := h.ordered
  unfold State.Ordered State.spans at hs ⊢
  rw [hcursor]
  exact hs

/-- The token at the cursor starts behind what has been read. -/
theorem le_current (h : Read low e s) : e.span.stop ≤ s.current.span.start :=
  Nat.le_trans h.le_behind h.ordered.behind_le

/-- Behind one more token there is a place for a further operand. -/
theorem next (h : Read low e s) (hw : s.words ≠ []) :
    s.next.Ordered ∧ s.current.span.stop = s.next.cursor.behind.stop ∧
      s.current.span.stop ≤ s.next.current.span.start := by
  have hbehind := State.behind_next hw
  refine ⟨h.ordered.next, by rw [hbehind], ?_⟩
  rw [← hbehind]
  exact h.ordered.next.behind_le

/-- A node with two operands that have been read one behind the other, up to a
span that ends behind them. -/
theorem pairUpTo {mid : Nat} {left right : Expr} {last : Span} {u : State} (hl : Read low left s)
    (hr : Read mid right u) (hmid : left.span.stop ≤ mid) (ht : t.Ordered)
    (hfirst : right.span.start ≤ last.start) (hend : right.span.stop ≤ last.stop)
    (hlast : last.stop ≤ t.cursor.behind.stop) (hspan : e.span = left.span.merge last)
    (hoperands : e.operands = [left, right]) (hparts : e.parts = left.parts ++ right.parts ++ [e]) :
    Read low e t := by
  obtain ⟨-, hlow, hleft, -, hlnested⟩ := hl
  obtain ⟨-, hmid', hright, -, hrnested⟩ := hr
  have hstart : e.span.start = min left.span.start last.start := by rw [hspan]; rfl
  have hstop : e.span.stop = max left.span.stop last.stop := by rw [hspan]; rfl
  refine ⟨ht, by omega, by omega, by omega, ?_⟩
  rw [hparts]
  refine List.forall_mem_append.mpr ⟨List.forall_mem_append.mpr ⟨hlnested, hrnested⟩,
    List.forall_mem_singleton.mpr (Expr.isNested_of_two hoperands ?_ hleft ?_ hright ?_)⟩
  · omega
  · omega
  · omega

/-- A node that ends with the second of two operands. -/
theorem pair {mid : Nat} {left right : Expr} (hl : Read low left s) (hr : Read mid right t)
    (hmid : left.span.stop ≤ mid) (hspan : e.span = left.span.merge right.span)
    (hoperands : e.operands = [left, right]) (hparts : e.parts = left.parts ++ right.parts ++ [e]) :
    Read low e t :=
  hl.pairUpTo hr hmid hr.ordered (Nat.le_refl _) (Nat.le_refl _) hr.le_behind hspan hoperands hparts

/-- A node with three operands that have been read one behind the other. -/
theorem triple {mid mid' : Nat} {first second third : Expr} {u : State} (h₁ : Read low first s)
    (h₂ : Read mid second u) (h₃ : Read mid' third t) (hmid : first.span.stop ≤ mid)
    (hmid' : second.span.stop ≤ mid') (hspan : e.span = first.span.merge third.span)
    (hoperands : e.operands = [first, second, third])
    (hparts : e.parts = first.parts ++ second.parts ++ third.parts ++ [e]) : Read low e t := by
  obtain ⟨-, hlow₁, hproper₁, -, hnested₁⟩ := h₁
  obtain ⟨-, hlow₂, hproper₂, -, hnested₂⟩ := h₂
  obtain ⟨ht, hlow₃, hproper₃, hbehind, hnested₃⟩ := h₃
  have hstart : e.span.start = min first.span.start third.span.start := by rw [hspan]; rfl
  have hstop : e.span.stop = max first.span.stop third.span.stop := by rw [hspan]; rfl
  have hnested : e.IsNested := by
    rw [Expr.IsNested, hoperands]
    simp only [List.map_cons, List.map_nil]
    refine ⟨?_, ?_⟩
    · simp only [List.forall_mem_cons]
      refine ⟨?_, ?_, ?_, nofun⟩
      · omega
      · omega
      · omega
    · simp only [List.pairwise_cons, List.forall_mem_cons]
      refine ⟨⟨?_, ?_, nofun⟩, ⟨?_, nofun⟩, nofun, .nil⟩
      · omega
      · omega
      · omega
  refine ⟨ht, by omega, by omega, by omega, ?_⟩
  rw [hparts]
  exact List.forall_mem_append.mpr ⟨List.forall_mem_append.mpr
    ⟨List.forall_mem_append.mpr ⟨hnested₁, hnested₂⟩, hnested₃⟩,
    List.forall_mem_singleton.mpr hnested⟩

/-- A node with an operand behind a token. -/
theorem behindToken {token : Span} {operand : Expr} (h : Read low operand t)
    (htoken : token.start ≤ token.stop) (hlow : token.stop ≤ low)
    (hspan : e.span = token.merge operand.span) (hoperands : e.operands = [operand])
    (hparts : e.parts = operand.parts ++ [e]) : Read token.start e t := by
  obtain ⟨ht, hlow', hproper, hbehind, hnested⟩ := h
  have hstart : e.span.start = min token.start operand.span.start := by rw [hspan]; rfl
  have hstop : e.span.stop = max token.stop operand.span.stop := by rw [hspan]; rfl
  refine ⟨ht, by omega, by omega, by omega, ?_⟩
  rw [hparts]
  refine List.forall_mem_append.mpr ⟨hnested,
    List.forall_mem_singleton.mpr (Expr.isNested_of_one hoperands ?_ ?_)⟩
  · omega
  · omega

/-- A node with an operand in front of the token behind the cursor. -/
theorem beforeToken {operand : Expr} (h : Read low operand s) (ht : t.Ordered)
    (hle : operand.span.stop ≤ t.cursor.behind.start)
    (hproper : t.cursor.behind.start ≤ t.cursor.behind.stop)
    (hspan : e.span = operand.span.merge t.cursor.behind) (hoperands : e.operands = [operand])
    (hparts : e.parts = operand.parts ++ [e]) : Read low e t := by
  obtain ⟨-, hlow, hoperand, -, hnested⟩ := h
  have hstart : e.span.start = min operand.span.start t.cursor.behind.start := by rw [hspan]; rfl
  have hstop : e.span.stop = max operand.span.stop t.cursor.behind.stop := by rw [hspan]; rfl
  refine ⟨ht, by omega, by omega, by omega, ?_⟩
  rw [hparts]
  refine List.forall_mem_append.mpr ⟨hnested,
    List.forall_mem_singleton.mpr (Expr.isNested_of_one hoperands ?_ ?_)⟩
  · omega
  · omega

/-- What stands between two tokens is read with them. -/
theorem enclosed (h : Read s.next.current.span.start e t) (hs : s.Ordered) (hw : s.words ≠ [])
    (hclose : t.words ≠ []) : Read s.current.span.start e t.next := by
  obtain ⟨hend, hbehind, -⟩ := h.next hclose
  have hstart := hs.next.behind_le
  rw [State.behind_next hw] at hstart
  refine ⟨hend, ?_, h.proper, ?_, h.nested⟩
  · exact Nat.le_trans hs.current_le (Nat.le_trans hstart h.low_le)
  · exact Nat.le_trans h.le_current
      (Nat.le_trans h.ordered.current_le (Nat.le_of_eq hbehind))

end Read

/-- The node of a member behind its base. -/
theorem Read.memberNode (he : Read low e s) (hdot : s.cursor.sees "." = true)
    (h : (Parser.member e s).2.Accepted) :
    Read low (Parser.member e s).1 (Parser.member e s).2 := by
  rw [member_apply] at h ⊢
  dsimp only at h ⊢
  by_cases hk : (s.next.current.kind == .identifier) = true
  · rw [if_pos hk]
    have hw : s.next.words ≠ [] := by
      refine State.words_ne_nil_of_kind ?_
      rw [eq_of_beq hk]
      nofun
    obtain ⟨hnext, -, hstart⟩ := he.next (State.words_ne_nil_of_sees hdot)
    have hle := he.le_current
    have hproper := he.ordered.current_le
    refine he.beforeToken hnext.next ?_ ?_ ?_ rfl rfl
    · rw [State.behind_next hw]
      omega
    · rw [State.behind_next hw]
      exact hnext.current_le
    · rw [State.behind_next hw]
      rfl
  · rw [if_neg hk] at h
    exact (State.not_accepted_push rfl h).elim

/-- The node of a call whose arguments have been read behind its callee, in front
of the token behind the cursor. -/
theorem Read.callNode {mid : Nat} {callee : Expr} {args : List Expr} (hc : Read low callee s)
    (ht : t.Ordered) (hmid : callee.span.stop ≤ mid) (hstart : mid ≤ t.cursor.behind.start)
    (hproper : t.cursor.behind.start ≤ t.cursor.behind.stop)
    (hargs : ∀ a ∈ args, mid ≤ a.span.start ∧ a.span.start ≤ a.span.stop ∧
      a.span.stop ≤ t.cursor.behind.start)
    (hapart : (args.map Expr.span).Pairwise fun s t => s.stop ≤ t.start)
    (hnested : ∀ p ∈ Expr.partsAll args, p.IsNested) :
    Read low (Parser.callNode callee args (callee.span.merge t.cursor.behind)) t := by
  obtain ⟨-, hlow, hcallee, -, hcnested⟩ := hc
  have hspan : (Parser.callNode callee args (callee.span.merge t.cursor.behind)).span =
      callee.span.merge t.cursor.behind := by
    unfold Parser.callNode
    split <;> rfl
  have hfirst : (callee.span.merge t.cursor.behind).start =
    min callee.span.start t.cursor.behind.start := rfl
  have hlast : (callee.span.merge t.cursor.behind).stop =
    max callee.span.stop t.cursor.behind.stop := rfl
  have hcovers : ∀ s ∈ args.map Expr.span, (callee.span.merge t.cursor.behind).start ≤ s.start ∧
      s.stop ≤ (callee.span.merge t.cursor.behind).stop := by
    refine List.forall_mem_map.mpr fun a ha => ?_
    obtain ⟨h₁, h₂, h₃⟩ := hargs a ha
    omega
  refine ⟨ht, by rw [hspan]; omega, by rw [hspan]; omega, by rw [hspan]; omega, ?_⟩
  unfold Parser.callNode
  split
  · rw [Expr.parts]
    refine List.forall_mem_append.mpr ⟨List.forall_mem_cons.mpr
      ⟨Expr.isNested_of_nil rfl, hnested⟩, List.forall_mem_singleton.mpr ⟨hcovers, hapart⟩⟩
  · rw [Expr.parts]
    refine List.forall_mem_append.mpr ⟨List.forall_mem_append.mpr ⟨hcnested, hnested⟩,
      List.forall_mem_singleton.mpr ⟨List.forall_mem_cons.mpr ⟨?_, hcovers⟩,
        List.pairwise_cons.mpr ⟨List.forall_mem_map.mpr fun a ha => ?_, hapart⟩⟩⟩
    · show (callee.span.merge _).start ≤ _ ∧ _ ≤ (callee.span.merge _).stop
      omega
    · have := (hargs a ha).1
      omega

theorem Read.one (h : Read low e s) : ReadAll low [e] s where
  ordered := h.ordered
  low_le := Nat.le_trans h.low_le (Nat.le_trans h.proper h.le_behind)
  within := List.forall_mem_singleton.mpr ⟨h.low_le, h.proper, h.le_behind⟩
  apart := List.pairwise_singleton _ _
  nested := List.forall_mem_append.mpr ⟨h.nested, List.forall_mem_nil _⟩

theorem Read.cons {mid : Nat} {es : List Expr} (h : Read low e s) (hes : ReadAll mid es t)
    (hmid : e.span.stop ≤ mid) : ReadAll low (e :: es) t := by
  obtain ⟨-, hlow, hproper, -, hnested⟩ := h
  obtain ⟨ht, hmid', hwithin, hapart, hesnested⟩ := hes
  refine ⟨ht, by omega, List.forall_mem_cons.mpr ⟨⟨hlow, hproper, by omega⟩, fun a ha => ?_⟩,
    List.pairwise_cons.mpr ⟨List.forall_mem_map.mpr fun a ha => ?_, hapart⟩,
    List.forall_mem_append.mpr ⟨hnested, hesnested⟩⟩
  · obtain ⟨h₁, h₂, h₃⟩ := hwithin a ha
    omega
  · have := (hwithin a ha).1
    omega

/-- Further tokens are joined to a name that has been read. -/
theorem joined_read (n : Nat) (name : String) {span : Span} {s : State} (hn : n ≤ s.words.length)
    (h : Read low (.ident name span) s) :
    Read low (joined n name span s).1 (joined n name span s).2 := by
  induction n generalizing name span s with
  | zero => exact h
  | succ n ih =>
    have hw : s.words ≠ [] := List.ne_nil_of_length_pos (Nat.zero_lt_of_lt hn)
    obtain ⟨hnext, hbehind, -⟩ := h.next hw
    have hle : span.stop ≤ s.current.span.start := h.le_current
    obtain ⟨hs, hlow, hproper, -, -⟩ := h
    have hcurrent := hs.current_le
    rw [joined_succ]
    refine ih _ ?_ ⟨hnext, ?_, ?_, ?_, List.forall_mem_singleton.mpr (Expr.isNested_of_nil rfl)⟩
    · rw [State.words_next, List.length_tail]
      exact Nat.le_sub_one_of_lt hn
    · show low ≤ min span.start s.current.span.start
      exact Nat.le_min.mpr ⟨hlow, Nat.le_trans hlow (Nat.le_trans hproper hle)⟩
    · show min span.start s.current.span.start ≤ max span.stop s.current.span.stop
      omega
    · show max span.stop s.current.span.stop ≤ s.next.cursor.behind.stop
      omega

/-- A path is read from its first token on. -/
theorem path_read {n : Nat} {s : State} (hs : s.Ordered) (hn : n + 1 ≤ s.words.length) :
    Read s.current.span.start (joined (n + 1) "" s.cursor.span s).1
      (joined (n + 1) "" s.cursor.span s).2 := by
  have hw : s.words ≠ [] := List.ne_nil_of_length_pos (Nat.zero_lt_of_lt hn)
  have hspan : s.cursor.span = s.current.span := rfl
  rw [joined_succ, hspan, Span.merge_self]
  refine joined_read n _ ?_ (.leaf hs hw rfl rfl rfl)
  rw [State.words_next, List.length_tail]
  exact Nat.le_sub_one_of_lt hn

/-! ### The grammar -/

/-- What the parser functions read when they may make `n` nested calls. -/
structure Nests (n : Nat) : Prop where
  expression : ∀ s, s.Ordered → (expression n s).2.Accepted →
    Read s.current.span.start (expression n s).1 (expression n s).2
  conditional : ∀ s, s.Ordered → (conditional n s).2.Accepted →
    Read s.current.span.start (conditional n s).1 (conditional n s).2
  binary : ∀ least s, s.Ordered → (binary n least s).2.Accepted →
    Read s.current.span.start (binary n least s).1 (binary n least s).2
  operators : ∀ least low left s, Read low left s → (operators n least left s).2.Accepted →
    Read low (operators n least left s).1 (operators n least left s).2
  unary : ∀ s, s.Ordered → (unary n s).2.Accepted →
    Read s.current.span.start (unary n s).1 (unary n s).2
  suffixes : ∀ low e s, Read low e s → (suffixes n e s).2.Accepted →
    Read low (suffixes n e s).1 (suffixes n e s).2
  call : ∀ low callee s, Read low callee s → s.cursor.sees "(" = true →
    (call n callee s).2.Accepted → Read low (call n callee s).1 (call n callee s).2
  arguments : ∀ paths s, s.Ordered → (arguments n paths s).2.Accepted →
    ReadAll s.current.span.start (arguments n paths s).1 (arguments n paths s).2
  primary : ∀ s, s.Ordered → (primary n s).2.Accepted →
    Read s.current.span.start (primary n s).1 (primary n s).2

theorem Nests.zero : Nests 0 where
  expression s _ h := by rw [expression_zero] at h; exact (not_accepted_missing _ _ h).elim
  conditional s _ h := by rw [conditional_zero] at h; exact (not_accepted_missing _ _ h).elim
  binary least s _ h := by rw [binary_zero] at h; exact (not_accepted_missing _ _ h).elim
  operators least low left s _ h := by
    rw [operators_zero] at h
    exact (not_accepted_missing _ _ h).elim
  unary s _ h := by rw [unary_zero] at h; exact (not_accepted_missing _ _ h).elim
  suffixes low e s _ h := by rw [suffixes_zero] at h; exact (not_accepted_missing _ _ h).elim
  call low callee s _ _ h := by rw [call_zero] at h; exact (not_accepted_missing _ _ h).elim
  arguments paths s _ h := by rw [arguments_zero] at h; exact (not_accepted_missing _ _ h).elim
  primary s _ h := by rw [primary_zero] at h; exact (not_accepted_missing _ _ h).elim

namespace Nests

variable {n : Nat} (ih : Nests n)
include ih

theorem expression_succ (s : State) (hs : s.Ordered)
    (h : (Parser.expression (n + 1) s).2.Accepted) :
    Read s.current.span.start (Parser.expression (n + 1) s).1 (Parser.expression (n + 1) s).2 := by
  rw [Parser.expression_succ] at h ⊢
  dsimp only at h ⊢
  cases hop : (Parser.conditional n s).2.operator? AssignOp.ofSymbol? with
  | none =>
    rw [hop] at h
    exact ih.conditional s hs h
  | some op =>
    rw [hop] at h
    have haccepted := State.accepted_checked.mp ((sound n).expression _ h).1
    have htarget := ih.conditional s hs (State.accepted_next.mp haccepted.1)
    obtain ⟨hnext, -, hstart⟩ := htarget.next (State.words_ne_nil_of_operator? hop)
    have hvalue := ih.expression _ ((State.ordered_checked _ _).mpr hnext) h
    refine htarget.pair hvalue ?_ rfl rfl rfl
    have hle := htarget.le_current
    have hproper := htarget.ordered.current_le
    rw [State.current, State.cursor_checked]
    exact Nat.le_trans hle (Nat.le_trans hproper hstart)

theorem conditional_succ (s : State) (hs : s.Ordered)
    (h : (Parser.conditional (n + 1) s).2.Accepted) :
    Read s.current.span.start (Parser.conditional (n + 1) s).1
      (Parser.conditional (n + 1) s).2 := by
  rw [Parser.conditional_succ] at h ⊢
  dsimp only at h ⊢
  by_cases hq : (Parser.binary n 1 s).2.cursor.sees "?" = true
  · rw [if_pos hq] at h ⊢
    by_cases hc : (Parser.expression n (Parser.binary n 1 s).2.next).2.cursor.sees ":" = true
    · rw [if_pos hc] at h ⊢
      have hyesAccepted := State.accepted_next.mp ((sound n).conditional _ h).1
      have hcondAccepted := State.accepted_next.mp ((sound n).expression _ hyesAccepted).1
      have hcond := ih.binary 1 s hs hcondAccepted
      obtain ⟨hnext, -, hstart⟩ := hcond.next (State.words_ne_nil_of_sees hq)
      have hyes := ih.expression _ hnext hyesAccepted
      obtain ⟨hnext', -, hstart'⟩ := hyes.next (State.words_ne_nil_of_sees hc)
      have hno := ih.conditional _ hnext' h
      refine hcond.triple hyes hno ?_ ?_ rfl rfl rfl
      · exact Nat.le_trans hcond.le_current (Nat.le_trans hcond.ordered.current_le hstart)
      · exact Nat.le_trans hyes.le_current (Nat.le_trans hyes.ordered.current_le hstart')
    · rw [if_neg hc] at h
      exact (State.not_accepted_push rfl h).elim
  · rw [if_neg hq] at h ⊢
    exact ih.binary 1 s hs h

theorem binary_succ (least : Nat) (s : State) (hs : s.Ordered)
    (h : (Parser.binary (n + 1) least s).2.Accepted) :
    Read s.current.span.start (Parser.binary (n + 1) least s).1
      (Parser.binary (n + 1) least s).2 := by
  rw [Parser.binary_succ] at h ⊢
  have hleft := ih.unary s hs ((sound n).operators _ _ _ h).1
  exact ih.operators _ _ _ _ hleft h

theorem operators_succ (least low : Nat) (left : Expr) (s : State) (hl : Read low left s)
    (h : (Parser.operators (n + 1) least left s).2.Accepted) :
    Read low (Parser.operators (n + 1) least left s).1
      (Parser.operators (n + 1) least left s).2 := by
  rw [Parser.operators_succ] at h ⊢
  cases hop : s.operator? BinaryOp.ofSymbol? with
  | none => exact hl
  | some op =>
    rw [hop] at h
    dsimp only at h ⊢
    by_cases hlt : op.precedence < least
    · rw [if_pos hlt]
      exact hl
    · rw [if_neg hlt] at h ⊢
      obtain ⟨hnext, -, hstart⟩ := hl.next (State.words_ne_nil_of_operator? hop)
      have hr := ih.binary (op.precedence + 1) _ hnext ((sound n).operators _ _ _ h).1
      refine ih.operators _ _ _ _ (hl.pair hr ?_ rfl rfl rfl) h
      exact Nat.le_trans hl.le_current (Nat.le_trans hl.ordered.current_le hstart)

theorem unary_succ (s : State) (hs : s.Ordered) (h : (Parser.unary (n + 1) s).2.Accepted) :
    Read s.current.span.start (Parser.unary (n + 1) s).1 (Parser.unary (n + 1) s).2 := by
  have hcurrent := hs.current_le
  rw [Parser.unary_succ] at h ⊢
  dsimp only at h ⊢
  cases hup : s.operator? UpdateOp.ofSymbol? with
  | some op =>
    rw [hup] at h
    have hr := ih.unary _ hs.next (State.accepted_checked.mp h).1
    have hstart := hs.next.behind_le
    rw [State.behind_next (State.words_ne_nil_of_operator? hup)] at hstart
    exact (hr.behindToken hcurrent hstart rfl rfl rfl).of_cursor (State.cursor_checked _ _)
  | none =>
    rw [hup] at h
    cases hop : s.operator? UnaryOp.ofSymbol? with
    | some op =>
      rw [hop] at h
      have hr := ih.unary _ hs.next h
      have hstart := hs.next.behind_le
      rw [State.behind_next (State.words_ne_nil_of_operator? hop)] at hstart
      exact hr.behindToken hcurrent hstart rfl rfl rfl
    | none =>
      rw [hop] at h
      have hp := ih.primary s hs ((sound n).suffixes _ _ h).1
      exact ih.suffixes _ _ _ hp h

theorem suffixes_succ (low : Nat) (e : Expr) (s : State) (he : Read low e s)
    (h : (Parser.suffixes (n + 1) e s).2.Accepted) :
    Read low (Parser.suffixes (n + 1) e s).1 (Parser.suffixes (n + 1) e s).2 := by
  rw [Parser.suffixes_succ] at h ⊢
  by_cases hcall : s.cursor.sees "(" = true
  · rw [if_pos hcall] at h ⊢
    have hc := ih.call low e s he hcall ((sound n).suffixes _ _ h).1
    exact ih.suffixes _ _ _ hc h
  rw [if_neg hcall] at h ⊢
  by_cases hdot : s.cursor.sees "." = true
  · rw [if_pos hdot] at h ⊢
    exact ih.suffixes _ _ _ (he.memberNode hdot ((sound n).suffixes _ _ h).1) h
  rw [if_neg hdot] at h ⊢
  by_cases hidx : s.cursor.sees "[" = true
  · rw [if_pos hidx] at h ⊢
    dsimp only at h ⊢
    obtain ⟨hk, hsees, hclosed⟩ := State.closed_of_accepted ((sound n).suffixes _ _ h).1
    rw [hclosed] at h ⊢
    obtain ⟨hnext, -, hstart⟩ := he.next (State.words_ne_nil_of_sees hidx)
    have hkey := ih.expression _ hnext hk
    obtain ⟨hend, hbehind, -⟩ := hkey.next (State.words_ne_nil_of_sees hsees)
    have hle := hkey.le_current
    have hproper := hkey.ordered.current_le
    refine ih.suffixes _ _ _ (he.pairUpTo hkey ?_ hend ?_ ?_ (Nat.le_of_eq hbehind) rfl rfl rfl) h
    · exact Nat.le_trans he.le_current (Nat.le_trans he.ordered.current_le hstart)
    · exact Nat.le_trans hkey.proper hle
    · exact Nat.le_trans hle hproper
  rw [if_neg hidx] at h ⊢
  cases hup : s.operator? UpdateOp.ofSymbol? with
  | none => exact he
  | some op =>
    rw [hup] at h
    have hw := State.words_ne_nil_of_operator? hup
    refine ih.suffixes _ _ _ (.of_cursor ?_ (State.cursor_checked _ _)) h
    refine he.beforeToken he.ordered.next ?_ ?_ ?_ rfl rfl
    · rw [State.behind_next hw]
      exact he.le_current
    · rw [State.behind_next hw]
      exact he.ordered.current_le
    · rw [State.behind_next hw]
      rfl

theorem call_succ (low : Nat) (callee : Expr) (s : State) (hc : Read low callee s)
    (hopen : s.cursor.sees "(" = true) (h : (Parser.call (n + 1) callee s).2.Accepted) :
    Read low (Parser.call (n + 1) callee s).1 (Parser.call (n + 1) callee s).2 := by
  obtain ⟨hnext, -, hstart⟩ := hc.next (State.words_ne_nil_of_sees hopen)
  have hle := hc.le_current
  have hproper := hc.ordered.current_le
  rw [Parser.call_succ] at h ⊢
  dsimp only at h ⊢
  by_cases hclose : s.next.cursor.sees ")" = true
  · rw [if_pos hclose] at h ⊢
    have hbehind := State.behind_next (State.words_ne_nil_of_sees hclose)
    refine hc.callNode hnext.next (Nat.le_trans hle (Nat.le_trans hproper hstart)) ?_ ?_
      (List.forall_mem_nil _) .nil (List.forall_mem_nil _)
    · exact Nat.le_of_eq (congrArg Span.start hbehind).symm
    · rw [hbehind]
      exact hnext.current_le
  · rw [if_neg hclose] at h ⊢
    obtain ⟨ha, hsees, hclosed⟩ := State.closed_of_accepted h
    rw [hclosed]
    have hargs := ih.arguments (intrinsic? callee).isSome _ hnext ha
    have hbehind := State.behind_next (State.words_ne_nil_of_sees hsees)
    have hend := hargs.ordered.behind_le
    refine hc.callNode hargs.ordered.next (Nat.le_trans hle (Nat.le_trans hproper hstart)) ?_ ?_
      ?_ ?_ ?_
    · rw [hbehind]
      exact Nat.le_trans hargs.low_le hend
    · rw [hbehind]
      exact hargs.ordered.current_le
    · intro a ha
      obtain ⟨h₁, h₂, h₃⟩ := hargs.within a ha
      rw [hbehind]
      exact ⟨h₁, h₂, Nat.le_trans h₃ hend⟩
    · exact hargs.apart
    · exact hargs.nested

theorem argument (paths : Bool) (s : State) (hs : s.Ordered)
    (h : (Parser.argument n paths s).2.Accepted) :
    Read s.current.span.start (Parser.argument n paths s).1 (Parser.argument n paths s).2 := by
  unfold Parser.argument at h ⊢
  dsimp only at h ⊢
  by_cases hl : (if paths then pathLength s.cursor.ahead else 0) = 0
  · rw [if_pos hl] at h ⊢
    exact ih.expression s hs h
  · rw [if_neg hl]
    cases paths with
    | false => exact absurd rfl hl
    | true =>
      obtain ⟨_, _, _, -, hlength⟩ := map_word_pathLength hl
      obtain ⟨m, hm⟩ := Nat.exists_eq_succ_of_ne_zero hl
      rw [if_pos rfl] at hm ⊢
      rw [hm] at hlength ⊢
      refine path_read hs ?_
      rwa [State.words, List.length_map]

theorem arguments_succ (paths : Bool) (s : State) (hs : s.Ordered)
    (h : (Parser.arguments (n + 1) paths s).2.Accepted) :
    ReadAll s.current.span.start (Parser.arguments (n + 1) paths s).1
      (Parser.arguments (n + 1) paths s).2 := by
  rw [Parser.arguments_succ] at h ⊢
  dsimp only at h ⊢
  by_cases hc : (Parser.argument n paths s).2.cursor.sees "," = true
  · rw [if_pos hc] at h ⊢
    have ha := State.accepted_next.mp ((sound n).arguments paths _ h).1
    have harg := ih.argument paths s hs ha
    obtain ⟨hnext, -, hstart⟩ := harg.next (State.words_ne_nil_of_sees hc)
    refine harg.cons (ih.arguments paths _ hnext h) ?_
    exact Nat.le_trans harg.le_current (Nat.le_trans harg.ordered.current_le hstart)
  · rw [if_neg hc] at h ⊢
    exact (ih.argument paths s hs h).one

theorem primary_succ (s : State) (hs : s.Ordered) (h : (Parser.primary (n + 1) s).2.Accepted) :
    Read s.current.span.start (Parser.primary (n + 1) s).1 (Parser.primary (n + 1) s).2 := by
  rw [Parser.primary_succ] at h ⊢
  dsimp only at h ⊢
  cases hk : s.current.kind with
  | number =>
    have hw := State.words_ne_nil_of_kind (s := s) (by rw [hk]; nofun)
    simp only [hk, numberNode_apply] at h ⊢
    cases hd : Literal.decode s.current.text with
    | error fault =>
      rw [hd] at h
      exact (State.not_accepted_push rfl h).elim
    | ok value =>
      refine (Read.leaf hs hw rfl rfl rfl).of_cursor ?_
      dsimp only
      split <;> rfl
  | string =>
    have hw := State.words_ne_nil_of_kind (s := s) (by rw [hk]; nofun)
    simp only [hk, textNode_apply] at h ⊢
    exact (Read.leaf hs hw rfl rfl rfl).of_cursor (State.cursor_foldl_push _)
  | identifier =>
    have hw := State.words_ne_nil_of_kind (s := s) (by rw [hk]; nofun)
    dsimp only
    unfold nameNode
    split
    · exact .leaf hs hw rfl rfl rfl
    · split
      · exact .leaf hs hw rfl rfl rfl
      · exact .leaf hs hw rfl rfl rfl
  | punctuation =>
    simp only [hk] at h ⊢
    by_cases hp : (s.current.text == "(") = true
    · rw [if_pos hp] at h ⊢
      have hw := State.words_ne_nil_of_kind (s := s) (by rw [hk]; nofun)
      obtain ⟨hr, hsees, hclosed⟩ := State.closed_of_accepted h
      rw [hclosed]
      exact (ih.expression _ hs.next hr).enclosed hs hw (State.words_ne_nil_of_sees hsees)
    · rw [if_neg hp] at h
      split at h
      · exact (not_accepted_missing _ _ h).elim
      · exact (not_accepted_missing _ _ h).elim
  | unknown =>
    simp only [hk] at h
    exact (State.not_accepted_push rfl h).elim
  | «end» =>
    simp only [hk] at h
    exact (not_accepted_missing _ _ h).elim

theorem succ : Nests (n + 1) where
  expression := ih.expression_succ
  conditional := ih.conditional_succ
  binary := ih.binary_succ
  operators least low left s := ih.operators_succ least low left s
  unary := ih.unary_succ
  suffixes := ih.suffixes_succ
  call := ih.call_succ
  arguments := ih.arguments_succ
  primary := ih.primary_succ

end Nests

theorem nests : ∀ n, Nests n
  | 0 => .zero
  | n + 1 => (nests n).succ

theorem whole_nested (fuel : Nat) {s : State} (hs : s.Ordered)
    (h : (whole fuel s).2.Accepted) : ∀ p ∈ (whole fuel s).1.parts, p.IsNested := by
  rw [whole_apply] at h ⊢
  split at h
  · exact (State.not_accepted_push rfl h).elim
  · next hne =>
    rw [if_neg hne]
    dsimp only at h ⊢
    split at h
    · next hend =>
      rw [if_pos hend]
      exact ((nests fuel).expression s hs h).nested
    · exact (State.not_accepted_push rfl h).elim

/-! ### Texts -/

/-- The lexemes of a text are in order, as far as their places are recorded. -/
theorem ordered_start (text : List Char) (base : Nat) : (start text base).Ordered := by
  have hlayout := Lexer.layout_lexemes 0 text
  have hspans : (start text base).spans =
      .none :: ((Lexer.lexemes 0 text).map (·.span base) ++ [(Lexer.endMark text base).span]) := by
    simp [State.spans, start, Cursor.ofTokens, Lexer.lexAt, Lexer.endMark, Token.isEnd, Token.endAt,
      Function.comp_def, Lexer.Lexeme.token]
  rw [State.Ordered, hspans]
  have hwithin : ∀ l ∈ Lexer.lexemes 0 text,
      l.offset + Lexer.width l.chars ≤ Lexer.width text := by
    intro l hl
    obtain ⟨before, after, htext, hoffset⟩ := hlayout.placed l hl
    rw [htext, Lexer.width_append, Lexer.width_append, hoffset]
    omega
  have hspan (l : Lexer.Lexeme) : l.span base =
      ⟨min (min l.offset Span.limit + base) Span.limit,
        min (min (l.offset + Lexer.width l.chars) Span.limit + base) Span.limit⟩ := rfl
  refine ⟨List.forall_mem_cons.mpr ⟨Nat.le_refl _, List.forall_mem_append.mpr
    ⟨List.forall_mem_map.mpr fun l _ => ?_, List.forall_mem_singleton.mpr (Nat.le_refl _)⟩⟩,
    List.pairwise_cons.mpr ⟨fun _ _ => Nat.zero_le _, List.pairwise_append.mpr
      ⟨List.pairwise_map.mpr (hlayout.pairwise.imp fun {l l'} hle => ?_),
        List.pairwise_singleton _ _, List.forall_mem_map.mpr fun l hl =>
          List.forall_mem_singleton.mpr ?_⟩⟩⟩
  · rw [hspan]
    dsimp only
    omega
  · rw [hspan, hspan]
    dsimp only
    omega
  · have hle := hwithin l hl
    rw [hspan]
    show _ ≤ min (min (Lexer.width text) Span.limit + base) Span.limit
    dsimp only
    omega

end Parser

/-- **In an expression without a syntax error every node encloses its
operands.** -/
theorem Template.parseAt_nested (text : List Char) (base : Nat)
    (h : ∀ d ∈ (parseAt text base).2, d.isSyntaxError = false) :
    ∀ p ∈ (parseAt text base).1.parts, p.IsNested := by
  refine Parser.whole_nested _ (Parser.ordered_start text base) fun d hd => ?_
  exact h d (List.mem_append_right _ (Array.mem_toList_iff.mpr hd))

end TargetView
