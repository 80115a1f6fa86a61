import TargetView.Proofs.Allocation
import TargetView.Proofs.Progress

/-! # The arena is the listing

Before the sweep, the arena of a text holds the listing of its tree without the
constants, and the findings are those about the tree (`Arena.raw_eq`).

The parser over an arena makes the calls of the other one, in the same order and
with the same number of calls to spare.  The induction over that number is for
an arena that holds `base` already: a call that starts an operand puts the nodes
of its tree behind `base`, and one that continues an operand finds the nodes of
that operand there.  The two part where a call has run out of nested calls, for
then the arena keeps the operand that the tree has lost; ten calls for each
token ahead rule that out.  The numbers are right as long as `number` tells the
places apart that are needed, three for each token ahead.
-/
namespace TargetView

/-! ### Listings without constants -/

/-- The node without its constant. -/
def Node.bare (n : Node) : Node := { n with constant := none }

namespace Listing

/-- The nodes without their constants. -/
def bare (nodes : Listing) : Listing := nodes.map Node.bare

variable (nodes : Listing) (n : Node) (i : Nat)

@[simp] theorem size_bare : nodes.bare.size = nodes.size := Array.size_map ..

theorem bare_push : bare (nodes.push n) = nodes.bare.push n.bare := Array.map_push

theorem node_bare : nodes.bare.node i = (nodes.node i).bare := by
  rw [node, node, bare, Array.getElem?_map]
  cases nodes[i]? <;> rfl

theorem last_push : last (nodes.push n) = nodes.size := by
  rw [last, Array.size_push, Nat.add_sub_cancel]

variable {nodes n}

/-- What has been put behind all others is found under its number. -/
theorem Extends.node_size {all : Listing} (h : all.Extends (nodes.push n)) :
    all.node nodes.size = n := by
  obtain ⟨rest, hrest⟩ := h
  rw [node, ← Array.getElem?_toList, ← hrest, Array.toList_push, List.append_assoc,
    ← Array.length_toList, List.getElem?_append_right (Nat.le_refl _), Nat.sub_self]
  rfl

end Listing

/-- A node says of itself what an expression does. -/
structure Node.Describes (n : Node) (e : Expr) : Prop where
  span : n.span = e.span
  assignable : n.shape.isAssignable = e.isAssignable
  malformed : n.shape.isMalformed = e.isMalformed
  intrinsic : n.shape.intrinsic? = Parser.intrinsic? e

namespace Expr

/-- The last node of an expression describes it. -/
theorem exists_listing_push (e : Expr) (nodes : Listing) : ∃ (before : Listing) (n : Node),
    e.listing nodes = before.push n ∧ n.bare.Describes e ∧ n.constant = e.fold := by
  cases e <;> exact ⟨_, _, rfl, ⟨rfl, rfl, rfl, rfl⟩, rfl⟩

variable {all : Listing} {e : Expr} {nodes : Listing} (h : all.Extends (e.listing nodes))
include h

theorem describes_last : (all.bare.node (e.listing nodes).last).Describes e := by
  obtain ⟨before, n, hpush, hn, -⟩ := e.exists_listing_push nodes
  rw [hpush] at h ⊢
  rwa [Listing.last_push, Listing.node_bare, h.node_size]

theorem spanOf_last : all.bare.spanOf (e.listing nodes).last = e.span := (describes_last h).span

theorem constantOf_last : all.constantOf (e.listing nodes).last = e.fold := by
  obtain ⟨before, n, hpush, -, hn⟩ := e.exists_listing_push nodes
  rw [hpush] at h ⊢
  rwa [Listing.last_push, Listing.constantOf, h.node_size]

omit h

/-- The expression is listed as a single node. -/
def IsLeaf (e : Expr) : Prop :=
  ∀ nodes : Listing, e.listing nodes = nodes.push ⟨e.leafShape, e.span, e.fold⟩

theorem listing_callNode (callee : Expr) (args : List Expr) (span : Span) (nodes : Listing) :
    (Parser.callNode callee args span).listing nodes =
      let all := listingAll (callee.listing nodes) args
      all.1.push ⟨
        match Parser.intrinsic? callee with
        | some fn => .intrinsic fn all.2
        | none => .call (callee.listing nodes).last all.2, span, none⟩ := by
  unfold Parser.callNode
  cases hfn : Parser.intrinsic? callee with
  | none => rfl
  | some fn =>
    cases callee with
    | ident name s =>
      have hname : fn.name = name := by simpa using List.find?_some hfn
      subst hname
      rfl
    | _ => cases hfn

end Expr

namespace Parser

theorem isLeaf_numberNode (t : Token) (s : State) : (numberNode t s).1.IsLeaf := by
  rw [numberNode_apply]
  cases Literal.decode t.text <;> exact fun _ => rfl

theorem isLeaf_nameNode (t : Token) : (nameNode t).IsLeaf := by
  unfold nameNode
  split
  · exact fun _ => rfl
  · split <;> exact fun _ => rfl

theorem isLeaf_joined : ∀ (n : Nat) (name : String) (span : Span) (s : State),
    (joined n name span s).1.IsLeaf
  | 0, _, _, _ => fun _ => rfl
  | n + 1, name, span, s => by
    rw [joined_succ]
    exact isLeaf_joined n _ _ _

end Parser

namespace Arena

open TargetView.Parser (State progress)

/-! ### Single steps -/

section Steps

variable {α β : Type} (nodes : Listing) (s : State)

theorem bind_apply (x : Alloc α) (f : α → Alloc β) :
    (x >>= f) nodes s = f (x nodes s).1.1 (x nodes s).1.2 (x nodes s).2 := rfl

theorem bind_lift (x : Parser.Parse α) (f : α → Alloc β) :
    ((liftM x : Alloc α) >>= f) nodes s = f (x s).1 nodes (x s).2 := rfl

theorem bind_cursor (f : Cursor → Alloc β) :
    ((liftM Parser.cursor : Alloc Cursor) >>= f) nodes s = f s.cursor nodes s := rfl

theorem bind_current (f : Token → Alloc β) :
    ((liftM Parser.current : Alloc Token) >>= f) nodes s = f s.current nodes s := rfl

theorem bind_advance (f : Token → Alloc β) :
    ((liftM Parser.advance : Alloc Token) >>= f) nodes s = f s.current nodes s.next := rfl

theorem bind_operator? (ofSymbol? : String → Option α) (f : Option α → Alloc β) :
    ((liftM (Parser.operator? ofSymbol?) : Alloc (Option α)) >>= f) nodes s =
      f (s.operator? ofSymbol?) nodes s := rfl

theorem bind_report (d : Diagnostic) (f : Unit → Alloc β) :
    ((liftM (Parser.report d) : Alloc Unit) >>= f) nodes s = f () nodes (s.push d) := rfl

theorem bind_eat (p : String) (f : Bool → Alloc β) :
    ((liftM (Parser.eat p) : Alloc Bool) >>= f) nodes s =
      if s.cursor.sees p then f true nodes s.next else f false nodes s := by
  rw [bind_lift, Parser.eat_apply]
  split <;> rfl

theorem bind_closing (bracket : String) (opening : Char) (opened : Span) (f : Span → Alloc β) :
    ((liftM (Parser.expectClosing bracket opening opened) : Alloc Span) >>= f) nodes s =
      f (s.closed bracket opening opened).1 nodes (s.closed bracket opening opened).2 := by
  rw [bind_lift, Parser.expectClosing_apply]

theorem bind_get (f : Listing → Alloc β) :
    ((get : Alloc Listing) >>= f) nodes s = f nodes nodes s := rfl

theorem ite_apply {c : Prop} [Decidable c] (x y : Alloc α) :
    (if c then x else y) nodes s = if c then x nodes s else y nodes s := by
  split <;> rfl

theorem bind_checkTarget {nodes : Listing} {target : Nat} {e : Expr}
    (h : (nodes.node target).Describes e) (symbol : String) (f : Unit → Alloc β) :
    (checkTarget target symbol >>= f) nodes s = f () nodes (s.checked e symbol) := by
  unfold checkTarget State.checked
  rw [bind_apply, bind_get, h.assignable, h.malformed, h.span]
  split <;> rfl

end Steps

/-- The arena with the nodes of an expression behind `base`, the number of the
last of them, and the state of the parser. -/
def leaves (base : Listing) (r : Expr × State) : (Nat × Listing) × State :=
  (((r.1.listing base).last, (r.1.listing base).bare), r.2)

/-- The same for the expressions of some arguments. -/
def leavesAll (base : Listing) (r : List Expr × State) : (List Nat × Listing) × State :=
  (((Expr.listingAll base r.1).2, (Expr.listingAll base r.1).1.bare), r.2)

theorem bind_leaves {x : Alloc Nat} {nodes base : Listing} {s : State} {r : Expr × State}
    (h : x nodes s = leaves base r) {β : Type} (f : Nat → Alloc β) :
    (x >>= f) nodes s = f (r.1.listing base).last (r.1.listing base).bare r.2 := by
  rw [bind_apply, h]
  rfl

theorem bind_leavesAll {x : Alloc (List Nat)} {nodes base : Listing} {s : State}
    {r : List Expr × State} (h : x nodes s = leavesAll base r) {β : Type}
    (f : List Nat → Alloc β) :
    (x >>= f) nodes s =
      f (Expr.listingAll base r.1).2 (Expr.listingAll base r.1).1.bare r.2 := by
  rw [bind_apply, h]
  rfl

variable {number : Nat → Nat} {room : Nat} (hnumber : ∀ i < room, number i = i)
include hnumber

theorem alloc_eq (e : Expr) (base : Listing) (s : State) {before : Listing} {shape : Shape}
    {span : Span} {constant : Option Constant}
    (hlisting : e.listing base = before.push ⟨shape, span, constant⟩)
    (hroom : before.size < room) :
    alloc number shape span before.bare s = leaves base (e, s) := by
  have hnode : (⟨shape, span, none⟩ : Node) = Node.bare ⟨shape, span, constant⟩ := rfl
  rw [leaves, hlisting, Listing.last_push, Listing.bare_push, ← hnode, ← hnumber _ hroom,
    ← before.size_bare]
  rfl

theorem store_eq (x : Parser.Parse Expr) (base : Listing) (s : State)
    (hleaf : (x s).1.IsLeaf) (hroom : base.size < room) :
    store number x base.bare s = leaves base (x s) :=
  alloc_eq hnumber _ base (x s).2 (hleaf base) hroom

theorem missing_eq (base : Listing) (t : Token) (s : State) (hroom : base.size < room) :
    store number (Parser.missing t) base.bare s = leaves base (Parser.missing t s) :=
  store_eq hnumber (Parser.missing t) base s (fun _ => rfl) hroom

theorem member_eq (e : Expr) (base : Listing) (s : State)
    (hroom : (e.listing base).size < room) :
    member number (e.listing base).last (e.listing base).bare s =
      leaves base (Parser.member e s) := by
  have hspan := Expr.spanOf_last (Listing.Extends.refl (e.listing base))
  unfold member
  rw [Parser.member_apply]
  simp only [bind_advance, bind_current, bind_report, bind_cursor, bind_get, ↓ite_apply, hspan]
  split <;> exact alloc_eq hnumber _ base _ rfl hroom

omit hnumber

/-! ### The grammar -/

variable (number room) in
/-- The functions over an arena follow those of the parser when both may make
`n` nested calls, if these are enough and so are the numbers. -/
structure Follows (n : Nat) : Prop where
  expression : ∀ base s, base.size + 1 + 3 * s.left ≤ room → 10 * s.left + 5 ≤ n →
    expression number n base.bare s = leaves base (Parser.expression n s)
  conditional : ∀ base s, base.size + 1 + 3 * s.left ≤ room → 10 * s.left + 4 ≤ n →
    conditional number n base.bare s = leaves base (Parser.conditional n s)
  binary : ∀ least base s, base.size + 1 + 3 * s.left ≤ room → 10 * s.left + 3 ≤ n →
    binary number n least base.bare s = leaves base (Parser.binary n least s)
  operators : ∀ least (left : Expr) base s,
    (left.listing base).size + 3 * s.left ≤ room → 10 * s.left + 1 ≤ n →
    operators number n least (left.listing base).last (left.listing base).bare s =
      leaves base (Parser.operators n least left s)
  unary : ∀ base s, base.size + 1 + 3 * s.left ≤ room → 10 * s.left + 2 ≤ n →
    unary number n base.bare s = leaves base (Parser.unary n s)
  suffixes : ∀ (e : Expr) base s,
    (e.listing base).size + 3 * s.left ≤ room → 10 * s.left + 1 ≤ n →
    suffixes number n (e.listing base).last (e.listing base).bare s =
      leaves base (Parser.suffixes n e s)
  call : ∀ (callee : Expr) base s, s.cursor.sees "(" = true →
    (callee.listing base).size + 3 * s.left ≤ room → 10 * s.left ≤ n →
    call number n (callee.listing base).last (callee.listing base).bare s =
      leaves base (Parser.call n callee s)
  arguments : ∀ paths base s, base.size + 1 + 3 * s.left ≤ room → 10 * s.left + 6 ≤ n →
    arguments number n paths base.bare s = leavesAll base (Parser.arguments n paths s)
  primary : ∀ base s, base.size + 1 + 3 * s.left ≤ room → 10 * s.left + 1 ≤ n →
    primary number n base.bare s = leaves base (Parser.primary n s)

theorem Follows.zero : Follows number room 0 where
  expression _ _ _ h := absurd h (by omega)
  conditional _ _ _ h := absurd h (by omega)
  binary _ _ _ _ h := absurd h (by omega)
  operators _ _ _ _ _ h := absurd h (by omega)
  unary _ _ _ h := absurd h (by omega)
  suffixes _ _ _ _ h := absurd h (by omega)
  call _ _ s hopen _ h := by
    have hleft := (State.takes_of_sees hopen).left_add
    omega
  arguments _ _ _ _ h := absurd h (by omega)
  primary _ _ _ h := absurd h (by omega)

namespace Follows

variable {n : Nat} (hnumber : ∀ i < room, number i = i) (ih : Follows number room n)
include hnumber ih

theorem expression_succ (base : Listing) (s : State) (hroom : base.size + 1 + 3 * s.left ≤ room)
    (hfuel : 10 * s.left + 5 ≤ n + 1) :
    Arena.expression number (n + 1) base.bare s = leaves base (Parser.expression (n + 1) s) := by
  have htarget := ((progress n).conditional s).potential
  rw [Arena.expression, Parser.expression_succ,
    bind_leaves (ih.conditional base s (by omega) (by omega))]
  generalize Parser.conditional n s = r at htarget ⊢
  obtain ⟨target, t⟩ := r
  have hlisting := target.size_listing base
  simp only [bind_operator?] at htarget ⊢
  cases hop : t.operator? AssignOp.ofSymbol? with
  | none => rfl
  | some op =>
    have hnext := ((State.takes_of_operator? hop).congr
      (State.cursor_checked target op.symbol)).left_add
    have hvalue := ((progress n).expression (t.next.checked target op.symbol)).potential
    simp only [bind_advance, bind_checkTarget _ (Expr.describes_last (.refl _))]
    rw [bind_leaves (ih.expression (target.listing base) _ (by omega) (by omega))]
    generalize Parser.expression n (t.next.checked target op.symbol) = r at hvalue ⊢
    obtain ⟨value, u⟩ := r
    have hlisting' := value.size_listing (target.listing base)
    simp only [bind_get, Expr.spanOf_last (value.extends_listing _),
      Expr.spanOf_last (.refl _)] at hvalue ⊢
    exact alloc_eq hnumber _ base u rfl (by omega)

theorem conditional_succ (base : Listing) (s : State)
    (hroom : base.size + 1 + 3 * s.left ≤ room) (hfuel : 10 * s.left + 4 ≤ n + 1) :
    Arena.conditional number (n + 1) base.bare s = leaves base (Parser.conditional (n + 1) s) := by
  have hcond := ((progress n).binary 1 s).potential
  rw [Arena.conditional, Parser.conditional_succ,
    bind_leaves (ih.binary 1 base s (by omega) (by omega))]
  generalize Parser.binary n 1 s = r at hcond ⊢
  obtain ⟨cond, t⟩ := r
  have hlisting := cond.size_listing base
  simp only [bind_eat] at hcond ⊢
  cases hq : t.cursor.sees "?" with
  | false => rfl
  | true =>
    have hnext := (State.takes_of_sees hq).left_add
    have hyes := ((progress n).expression t.next).potential
    simp only [if_true, Bool.not_true, Bool.false_eq_true, if_false]
    rw [bind_leaves (ih.expression (cond.listing base) _ (by omega) (by omega))]
    generalize Parser.expression n t.next = r at hyes ⊢
    obtain ⟨yes, u⟩ := r
    have hlisting' := yes.size_listing (cond.listing base)
    simp only [bind_eat] at hyes ⊢
    cases hc : u.cursor.sees ":" with
    | true =>
      have hnext' := (State.takes_of_sees hc).left_add
      have hno := ((progress n).conditional u.next).potential
      simp only [if_true]
      rw [bind_leaves (ih.conditional (yes.listing (cond.listing base)) _ (by omega) (by omega))]
      generalize Parser.conditional n u.next = r at hno ⊢
      obtain ⟨no, v⟩ := r
      have hlisting'' := no.size_listing (yes.listing (cond.listing base))
      have hextends := (no.extends_listing _).trans (yes.extends_listing (cond.listing base))
      simp only [bind_get, Expr.spanOf_last hextends, Expr.spanOf_last (.refl _)] at hno ⊢
      exact alloc_eq hnumber _ base v rfl (by omega)
    | false =>
      -- What stands for the missing branch is a node too.
      have hno := alloc_eq hnumber (.malformed u.current.span) (yes.listing (cond.listing base))
        (u.push (.unexpectedToken u.current.span "`:` in conditional expression" u.current.text))
        rfl (by omega)
      have hlisting'' := (Expr.malformed u.current.span).size_listing
        (yes.listing (cond.listing base))
      have hextends := ((Expr.malformed u.current.span).extends_listing _).trans
        (yes.extends_listing (cond.listing base))
      simp only [Bool.false_eq_true, if_false, bind_current, bind_report]
      rw [bind_leaves hno]
      simp only [bind_get, Expr.spanOf_last hextends, Expr.spanOf_last (.refl _)]
      exact alloc_eq hnumber _ base _ rfl (by simp only [Expr.size] at hlisting''; omega)

omit hnumber in
theorem binary_succ (least : Nat) (base : Listing) (s : State)
    (hroom : base.size + 1 + 3 * s.left ≤ room) (hfuel : 10 * s.left + 3 ≤ n + 1) :
    Arena.binary number (n + 1) least base.bare s =
      leaves base (Parser.binary (n + 1) least s) := by
  have hoperand := ((progress n).unary s).potential
  have hlisting := (Parser.unary n s).1.size_listing base
  rw [Arena.binary, Parser.binary_succ, bind_leaves (ih.unary base s (by omega) (by omega))]
  exact ih.operators least _ base _ (by omega) (by omega)

theorem operators_succ (least : Nat) (left : Expr) (base : Listing) (s : State)
    (hroom : (left.listing base).size + 3 * s.left ≤ room) (hfuel : 10 * s.left + 1 ≤ n + 1) :
    Arena.operators number (n + 1) least (left.listing base).last (left.listing base).bare s =
      leaves base (Parser.operators (n + 1) least left s) := by
  rw [Arena.operators, Parser.operators_succ]
  simp only [bind_operator?]
  cases hop : s.operator? BinaryOp.ofSymbol? with
  | none => rfl
  | some op =>
    have hnext := (State.takes_of_operator? hop).left_add
    by_cases hlt : op.precedence < least
    · simp only [hlt, if_true]
      rfl
    · have hright := ((progress n).binary (op.precedence + 1) s.next).potential
      simp only [hlt, if_false, bind_advance]
      rw [bind_leaves (ih.binary _ (left.listing base) _ (by omega) (by omega))]
      generalize Parser.binary n (op.precedence + 1) s.next = r at hright ⊢
      obtain ⟨right, t⟩ := r
      have hlisting := right.size_listing (left.listing base)
      have hlisting' := left.size_listing base
      have hboth := (Expr.binary op left right (left.span.merge right.span)).size_listing base
      simp only [bind_get, Expr.spanOf_last (right.extends_listing _),
        Expr.spanOf_last (.refl _), Expr.size] at hright hboth ⊢
      rw [bind_leaves (alloc_eq hnumber (.binary op left right (left.span.merge right.span))
        base t rfl (by omega))]
      exact ih.operators least (.binary op left right _) base t (by omega) (by omega)

theorem unary_succ (base : Listing) (s : State) (hroom : base.size + 1 + 3 * s.left ≤ room)
    (hfuel : 10 * s.left + 2 ≤ n + 1) :
    Arena.unary number (n + 1) base.bare s = leaves base (Parser.unary (n + 1) s) := by
  have hoperand := ((progress n).unary s.next).potential
  have hlisting := (Parser.unary n s.next).1.size_listing base
  rw [Arena.unary, Parser.unary_succ]
  simp only [bind_current, bind_operator?]
  cases hup : s.operator? UpdateOp.ofSymbol? with
  | some op =>
    have hnext := (State.takes_of_operator? hup).left_add
    simp only [bind_advance]
    rw [bind_leaves (ih.unary base _ (by omega) (by omega)),
      bind_checkTarget _ (Expr.describes_last (.refl _))]
    simp only [bind_get, Expr.spanOf_last (.refl _)]
    exact alloc_eq hnumber _ base _ rfl (by omega)
  | none =>
    simp only [bind_operator?]
    cases hop : s.operator? UnaryOp.ofSymbol? with
    | some op =>
      have hnext := (State.takes_of_operator? hop).left_add
      simp only [bind_advance]
      rw [bind_leaves (ih.unary base _ (by omega) (by omega))]
      simp only [bind_get, Expr.spanOf_last (.refl _)]
      exact alloc_eq hnumber _ base _ rfl (by omega)
    | none =>
      have hprimary := ((progress n).primary s).potential
      have hlisting' := (Parser.primary n s).1.size_listing base
      simp only
      rw [bind_leaves (ih.primary base s (by omega) (by omega))]
      exact ih.suffixes _ base _ (by omega) (by omega)

theorem suffixes_succ (e : Expr) (base : Listing) (s : State)
    (hroom : (e.listing base).size + 3 * s.left ≤ room) (hfuel : 10 * s.left + 1 ≤ n + 1) :
    Arena.suffixes number (n + 1) (e.listing base).last (e.listing base).bare s =
      leaves base (Parser.suffixes (n + 1) e s) := by
  have hlisting := e.size_listing base
  rw [Arena.suffixes, Parser.suffixes_succ, bind_cursor]
  by_cases hcall : s.cursor.sees "(" = true
  · have hnext := (State.takes_of_sees hcall).left_add
    have hcost := ((progress n).call e s hcall).potential
    -- The call takes a token, so the suffixes behind it have calls enough.
    have hlt := Parser.left_call_lt (n := n) (by omega) e hcall
    have hlisting' := (Parser.call n e s).1.size_listing base
    rw [if_pos hcall, if_pos hcall, bind_leaves (ih.call e base s hcall (by omega) (by omega))]
    exact ih.suffixes _ base _ (by omega) (by omega)
  rw [if_neg hcall, if_neg hcall]
  by_cases hdot : s.cursor.sees "." = true
  · obtain ⟨k, hk, hsize⟩ := Parser.spends_member e hdot
    have hleft := hk.left_add
    have hlisting' := (Parser.member e s).1.size_listing base
    rw [if_pos hdot, if_pos hdot, bind_leaves (member_eq hnumber e base s (by omega))]
    exact ih.suffixes _ base _ (by omega) (by omega)
  rw [if_neg hdot, if_neg hdot]
  by_cases hindex : s.cursor.sees "[" = true
  · have hnext := (State.takes_of_sees hindex).left_add
    have hkey := ((progress n).expression s.next).potential
    rw [if_pos hindex, if_pos hindex, bind_advance,
      bind_leaves (ih.expression (e.listing base) _ (by omega) (by omega))]
    generalize Parser.expression n s.next = r at hkey ⊢
    obtain ⟨key, t⟩ := r
    obtain ⟨c, hc⟩ := t.takes_closed "]" '[' s.current.span
    have hclosed := hc.left_add
    have hlisting' := key.size_listing (e.listing base)
    simp only [bind_closing, bind_get,
      Expr.spanOf_last (key.extends_listing _)] at hkey ⊢
    generalize t.closed "]" '[' s.current.span = r at hclosed ⊢
    obtain ⟨closed, u⟩ := r
    have hboth := (Expr.index e key (e.span.merge closed)).size_listing base
    simp only [Expr.size] at hboth hclosed ⊢
    rw [bind_leaves (alloc_eq hnumber (.index e key (e.span.merge closed)) base u rfl (by omega))]
    exact ih.suffixes (.index e key _) base u (by omega) (by omega)
  rw [if_neg hindex, if_neg hindex, bind_operator?]
  cases hop : s.operator? UpdateOp.ofSymbol? with
  | none => rfl
  | some op =>
    have hnext := ((State.takes_of_operator? hop).congr
      (State.cursor_checked e op.symbol)).left_add
    have hboth := (Expr.update op false e (e.span.merge s.current.span)).size_listing base
    simp only [bind_advance,
      bind_checkTarget _ (Expr.describes_last (.refl _)), bind_get,
      Expr.spanOf_last (.refl _), Expr.size] at hboth ⊢
    rw [bind_leaves (alloc_eq hnumber (.update op false e (e.span.merge s.current.span)) base _ rfl
      (by omega))]
    exact ih.suffixes (.update op false e _) base (s.next.checked e op.symbol) (by omega)
      (by omega)

theorem call_succ (callee : Expr) (base : Listing) (s : State)
    (hopen : s.cursor.sees "(" = true) (hroom : (callee.listing base).size + 3 * s.left ≤ room)
    (hfuel : 10 * s.left ≤ n + 1) :
    Arena.call number (n + 1) (callee.listing base).last (callee.listing base).bare s =
      leaves base (Parser.call (n + 1) callee s) := by
  have hnext := (State.takes_of_sees hopen).left_add
  -- Both parsers ask the callee whether to read paths, this one by its node.
  have hdescribes := Expr.describes_last (.refl (callee.listing base))
  rw [Arena.call, Parser.call_succ]
  simp only [bind_advance, bind_get, hdescribes.intrinsic, bind_eat]
  cases hclose : s.next.cursor.sees ")" with
  | true =>
    exact alloc_eq hnumber _ base _ (by
      rw [Expr.spanOf_last (.refl _)]
      exact callee.listing_callNode [] _ base) (by omega)
  | false =>
    have hargs := ((progress n).arguments (Parser.intrinsic? callee).isSome s.next).potential
    simp only [Bool.false_eq_true, if_false]
    rw [bind_leavesAll (ih.arguments _ (callee.listing base) _ (by omega) (by omega))]
    generalize Parser.arguments n (Parser.intrinsic? callee).isSome s.next = r at hargs ⊢
    obtain ⟨args, t⟩ := r
    have hlisting := Expr.size_listingAll args (callee.listing base)
    simp only [bind_closing] at hargs ⊢
    exact alloc_eq hnumber _ base _ (by
      rw [Expr.spanOf_last (Expr.extends_listingAll args _)]
      exact callee.listing_callNode args _ base) (by omega)

theorem argument_eq (paths : Bool) (base : Listing) (s : State)
    (hroom : base.size + 1 + 3 * s.left ≤ room) (hfuel : 10 * s.left + 5 ≤ n) :
    argument number (Arena.expression number n) paths base.bare s =
      leaves base (Parser.argument n paths s) := by
  rw [argument, Parser.argument, bind_cursor]
  by_cases hl : (if paths then Parser.pathLength s.cursor.ahead else 0) = 0
  · rw [if_pos hl, if_pos hl]
    exact ih.expression base s hroom hfuel
  · rw [if_neg hl, if_neg hl]
    exact store_eq hnumber _ base s (Parser.isLeaf_joined _ _ _ _) (by omega)

theorem arguments_succ (paths : Bool) (base : Listing) (s : State)
    (hroom : base.size + 1 + 3 * s.left ≤ room) (hfuel : 10 * s.left + 6 ≤ n + 1) :
    Arena.arguments number (n + 1) paths base.bare s =
      leavesAll base (Parser.arguments (n + 1) paths s) := by
  have harg := ((progress n).argument paths s).potential
  rw [Arena.arguments, Parser.arguments_succ,
    bind_leaves (argument_eq hnumber ih paths base s hroom (by omega)), bind_eat]
  generalize Parser.argument n paths s = r at harg ⊢
  obtain ⟨arg, t⟩ := r
  have hlisting := arg.size_listing base
  cases hcomma : t.cursor.sees "," with
  | false =>
    simp only [hcomma]
    rfl
  | true =>
    have hnext := (State.takes_of_sees hcomma).left_add
    simp only [hcomma, if_true] at harg ⊢
    rw [bind_leavesAll (ih.arguments paths (arg.listing base) _ (by omega) (by omega))]
    rfl

theorem primary_succ (base : Listing) (s : State)
    (hroom : base.size + 1 + 3 * s.left ≤ room) (hfuel : 10 * s.left + 1 ≤ n + 1) :
    Arena.primary number (n + 1) base.bare s = leaves base (Parser.primary (n + 1) s) := by
  rw [Arena.primary, Parser.primary_succ, bind_current]
  dsimp only
  cases hk : s.current.kind with
  | number =>
    exact store_eq hnumber _ base s.next (Parser.isLeaf_numberNode s.current _) (by omega)
  | string =>
    exact store_eq hnumber (Parser.textNode s.current) base s.next (fun _ => rfl) (by omega)
  | identifier =>
    exact store_eq hnumber (pure (Parser.nameNode s.current)) base s.next
      (Parser.isLeaf_nameNode _) (by omega)
  | unknown => exact alloc_eq hnumber _ base _ rfl (by omega)
  | «end» => exact missing_eq hnumber base _ s (by omega)
  | punctuation =>
    have hnext := (State.takes_of_kind (s := s) (by rw [hk]; decide)).left_add
    dsimp only
    by_cases hopen : (s.current.text == "(") = true
    · rw [if_pos hopen, if_pos hopen, bind_advance,
        bind_leaves (ih.expression base _ (by omega) (by omega)), bind_closing]
      rfl
    · rw [if_neg hopen, if_neg hopen]
      cases Parser.isAwaited s.current.text with
      | true => exact missing_eq hnumber base _ s (by omega)
      | false => exact missing_eq hnumber base _ s.next (by omega)

theorem succ : Follows number room (n + 1) where
  expression := ih.expression_succ hnumber
  conditional := ih.conditional_succ hnumber
  binary := ih.binary_succ
  operators := ih.operators_succ hnumber
  unary := ih.unary_succ hnumber
  suffixes := ih.suffixes_succ hnumber
  call := ih.call_succ hnumber
  arguments := ih.arguments_succ hnumber
  primary := ih.primary_succ hnumber

end Follows

variable (hnumber : ∀ i < room, number i = i)
include hnumber

/-- **The parser over an arena puts the listing of the tree there.** -/
theorem follows : ∀ n, Follows number room n
  | 0 => .zero
  | n + 1 => (follows n).succ hnumber

theorem whole_eq (fuel : Nat) (base : Listing) (s : State)
    (hroom : base.size + 1 + 3 * s.left ≤ room) (hfuel : 10 * s.left + 5 ≤ fuel) :
    whole number fuel base.bare s = leaves base (Parser.whole fuel s) := by
  rw [whole, Parser.whole_apply, bind_current]
  cases hstart : s.current.isEnd with
  | true => exact alloc_eq hnumber _ base _ rfl (by omega)
  | false =>
    simp only [Bool.false_eq_true, if_false]
    rw [bind_leaves ((follows hnumber fuel).expression base s hroom hfuel), bind_current]
    cases hend : (Parser.expression fuel s).2.current.isEnd <;> rfl

/-! ### Texts -/

theorem parseAt_eq (nodes : Listing) (text : List Char) (base : Nat)
    (hroom : nodes.size + 1 + 3 * Lexer.width text ≤ room) :
    parseAt number nodes.bare text base =
      let r := Template.parseAt text base
      ⟨(r.1.listing nodes).last, (r.1.listing nodes).bare, r.2⟩ := by
  have hleft := Parser.left_start_le text base
  -- The mark of the end is counted too, which leaves ten calls to spare.
  have hlength : (Lexer.lexAt text base).tokens.length = (Parser.start text base).left + 1 := by
    rw [Parser.left_start, Lexer.lexAt]
    simp
  have h := whole_eq hnumber (10 * (Lexer.lexAt text base).tokens.length + 10) nodes
    (Parser.start text base) (by omega) (by omega)
  rw [Parser.start] at h
  rw [parseAt, h]
  rfl

omit hnumber in
theorem listing_flush (literal : List Char) (segments : List Segment) (nodes : Listing) :
    Template.listing nodes (Template.flush literal segments) =
      ((Template.listing nodes segments).1, flush literal (Template.listing nodes segments).2) := by
  unfold Template.flush flush
  cases literal.isEmpty <;> rfl

/-- The expressions of a format text share the arena. -/
theorem assemble_eq (ps : List Template.Piece) (offset : Nat) (literal : List Char)
    (nodes : Listing)
    (hroom : nodes.size + 3 * Lexer.width (ps.flatMap Template.Piece.source) ≤ room) :
    assemble number offset literal nodes.bare ps =
      let r := Template.assemble offset literal ps
      ⟨(Template.listing nodes r.1).2, (Template.listing nodes r.1).1.bare, r.2⟩ := by
  induction ps generalizing offset literal nodes with
  | nil =>
    rw [assemble, Template.assemble]
    dsimp only
    rw [listing_flush]
    rfl
  | cons piece rest ih =>
    rw [List.flatMap_cons, Lexer.width_append] at hroom
    cases piece with
    | literal c => exact ih _ _ nodes (by omega)
    | percent => exact ih _ _ nodes (by omega)
    | conversion spec blanks inner closed =>
      have hsource := Template.Piece.width_lt_source spec blanks inner closed
      have hsize := Template.size_parseAt_le inner
        (min (Template.Piece.base offset spec blanks) Span.limit)
      rw [assemble, Template.assemble]
      dsimp only
      rw [parseAt_eq hnumber nodes inner _ (by omega)]
      unfold Template.Piece.base at hsize
      generalize Template.parseAt inner _ = r at hsize ⊢
      obtain ⟨e, found⟩ := r
      have hlisting := e.size_listing nodes
      dsimp only at hsize
      rw [ih _ [] (e.listing nodes) (by omega), listing_flush]
      rfl

omit hnumber in
theorem bare_empty : Listing.bare #[] = #[] := Array.map_empty

/-- **Before the sweep the arena holds the listing without its constants**, as
far as numbers tell places apart. -/
theorem raw_eq (text : String) (hroom : 3 * text.utf8ByteSize + 1 ≤ room) :
    (raw number text).result = (TargetView.parse text).listing.last ∧
      (raw number text).nodes = (TargetView.parse text).listing.bare ∧
      (raw number text).found ++ (TargetView.parse text).body.survey =
        (TargetView.parse text).diagnostics := by
  rw [← Lexer.width_toList] at hroom
  unfold raw
  by_cases hf : Template.isFormat text.toList = true
  · have hsize := Template.length_located_le (Template.pieces text.toList) 0
    have hpieces := Template.cut_pieces text.toList
    rw [hpieces.flatMap_source, ← Template.parts_ofChars] at hsize
    have hlisting := congrArg List.length
      (Template.map_facts_listing (Template.ofChars text.toList).1 #[])
    rw [List.length_map, List.length_append, List.length_map, List.length_map] at hlisting
    have h := assemble_eq hnumber (Template.pieces text.toList) 0 [] #[]
      (by rw [hpieces.flatMap_source, Array.size_empty]; omega)
    rw [bare_empty] at h
    rw [if_pos hf, parse_of_isFormat hf, h]
    -- The node of the text itself is the one for which no byte has paid.
    have hlast := hnumber (Template.listing #[] (Template.ofChars text.toList).1).1.size (by
      rw [Array.toList_empty, List.length_nil, Array.length_toList] at hlisting
      omega)
    refine ⟨?_, ?_, rfl⟩
    · exact (congrArg number (Listing.size_bare _)).trans
        (hlast.trans (Listing.last_push _ _).symm)
    · exact (Listing.bare_push _ ⟨.template _, .ofRange 0 (Lexer.width text.toList),
        (Body.template _ (.ofRange 0 (Lexer.width text.toList))).constant?⟩).symm
  · have h := parseAt_eq hnumber #[] text.toList 0 (by rw [Array.size_empty]; omega)
    rw [bare_empty] at h
    rw [if_neg hf, parse_of_not_isFormat (Bool.eq_false_iff.mpr hf), h]
    exact ⟨rfl, rfl, rfl⟩

end Arena
end TargetView
