import Mathlib.Data.List.Forall2
import TargetView.Proofs.Bare
import TargetView.Proofs.Parts

/-! # Corresponding trees

Two trees correspond along a relation on spans if they are built alike and their
spans are related, node by node (`Expr.Corresponds`).  Everything that is said of
a tree apart from its spans is then said of both: how it is evaluated, its
constant, and the findings about its operators up to their labels.

The relation may be the graph of a function, which moves a tree to another place
(`Span.shift`), or hold of the second span whatever the first one is; a tree that
corresponds to itself in this way has the property at every node.
-/
namespace TargetView

variable {R : Span → Span → Prop}

/-! ## Findings -/

/-- The findings say the same of related places. -/
structure Diagnostic.Corresponds (R : Span → Span → Prop) (d d' : Diagnostic) : Prop where
  code : d'.code = d.code
  severity : d'.severity = d.severity
  message : d'.message = d.message
  labels : List.Forall₂
    (fun l l' => R l.span l'.span ∧ l'.message = l.message ∧ l'.primary = l.primary)
    d.labels d'.labels
  notes : d'.notes = d.notes

namespace Diagnostic

theorem labelled_corresponds {s s' : Span} (h : R s s') (severity : Severity) (code : ErrorCode)
    (message label : String) :
    (labelled severity code message s label).Corresponds R
      (labelled severity code message s' label) :=
  ⟨rfl, rfl, rfl, .cons ⟨h, rfl, rfl⟩ .nil, rfl⟩

theorem Corresponds.noting {d d' : Diagnostic} (h : d.Corresponds R d') (note : String) :
    (d.noting note).Corresponds R (d'.noting note) :=
  ⟨h.code, h.severity, h.message, h.labels, congrArg (· ++ [note]) h.notes⟩

theorem Corresponds.relating {d d' : Diagnostic} (h : d.Corresponds R d') {s s' : Span}
    (hs : R s s') (label : String) : (d.relating s label).Corresponds R (d'.relating s' label) :=
  ⟨h.code, h.severity, h.message,
    List.rel_append h.labels (.cons ⟨hs, rfl, rfl⟩ .nil), h.notes⟩

/-- Every place of a finding is related to one of the finding that it corresponds
to. -/
theorem Corresponds.exists_label {d d' : Diagnostic} (h : d.Corresponds R d') :
    ∀ l ∈ d.labels, ∃ l' ∈ d'.labels, R l.span l'.span := by
  intro l hl
  obtain ⟨i, hi, rfl⟩ := List.mem_iff_getElem.mp hl
  have hi' : i < d'.labels.length := h.labels.length_eq ▸ hi
  exact ⟨_, List.getElem_mem hi', (h.labels.get hi hi').1⟩

end Diagnostic

/-! ## Trees -/

namespace Expr

mutual
/-- The trees are built alike, and their spans are related. -/
inductive Corresponds (R : Span → Span → Prop) : Expr → Expr → Prop
  | number (value : Literal) {s s' : Span} (h : R s s') :
      Corresponds R (.number value s) (.number value s')
  | text (value : String) {s s' : Span} (h : R s s') :
      Corresponds R (.text value s) (.text value s')
  | ident (name : String) {s s' : Span} (h : R s s') :
      Corresponds R (.ident name s) (.ident name s')
  | member {base base' : Expr} (name : String) {s s' : Span} (hb : Corresponds R base base')
      (h : R s s') : Corresponds R (.member base name s) (.member base' name s')
  | index {base base' key key' : Expr} {s s' : Span} (hb : Corresponds R base base')
      (hk : Corresponds R key key') (h : R s s') :
      Corresponds R (.index base key s) (.index base' key' s')
  | unary (op : UnaryOp) {operand operand' : Expr} {s s' : Span}
      (ho : Corresponds R operand operand') (h : R s s') :
      Corresponds R (.unary op operand s) (.unary op operand' s')
  | binary (op : BinaryOp) {left left' right right' : Expr} {s s' : Span}
      (hl : Corresponds R left left') (hr : Corresponds R right right') (h : R s s') :
      Corresponds R (.binary op left right s) (.binary op left' right' s')
  | conditional {cond cond' yes yes' no no' : Expr} {s s' : Span}
      (hc : Corresponds R cond cond') (hy : Corresponds R yes yes') (hn : Corresponds R no no')
      (h : R s s') : Corresponds R (.conditional cond yes no s) (.conditional cond' yes' no' s')
  | assign (op : AssignOp) {target target' value value' : Expr} {s s' : Span}
      (ht : Corresponds R target target') (hv : Corresponds R value value') (h : R s s') :
      Corresponds R (.assign op target value s) (.assign op target' value' s')
  | update (op : UpdateOp) (before : Bool) {target target' : Expr} {s s' : Span}
      (ht : Corresponds R target target') (h : R s s') :
      Corresponds R (.update op before target s) (.update op before target' s')
  | call {callee callee' : Expr} {args args' : List Expr} {s s' : Span}
      (hc : Corresponds R callee callee') (ha : CorrespondAll R args args') (h : R s s') :
      Corresponds R (.call callee args s) (.call callee' args' s')
  | intrinsic (fn : Intrinsic) {args args' : List Expr} {name name' s s' : Span}
      (hname : R name name') (ha : CorrespondAll R args args') (h : R s s') :
      Corresponds R (.intrinsic fn name args s) (.intrinsic fn name' args' s')
  | malformed {s s' : Span} (h : R s s') : Corresponds R (.malformed s) (.malformed s')
  | unnamed {base base' : Expr} {s s' : Span} (hb : Corresponds R base base') (h : R s s') :
      Corresponds R (.unnamed base s) (.unnamed base' s')

/-- Some trees correspond to some others, one by one. -/
inductive CorrespondAll (R : Span → Span → Prop) : List Expr → List Expr → Prop
  | nil : CorrespondAll R [] []
  | cons {e e' : Expr} {rest rest' : List Expr} (he : Corresponds R e e')
      (hrest : CorrespondAll R rest rest') : CorrespondAll R (e :: rest) (e' :: rest')
end

namespace Corresponds

theorem span {e e' : Expr} (h : e.Corresponds R e') : R e.span e'.span := by
  cases h <;> assumption

theorem isMalformed {e e' : Expr} (h : e.Corresponds R e') : e'.isMalformed = e.isMalformed := by
  cases h <;> rfl

mutual
/-- Trees that correspond differ in spans only. -/
theorem bare {e e' : Expr} : e.Corresponds R e' → e'.bare = e.bare
  | .number .. | .text .. | .ident .. | .malformed _ => by simp only [Expr.bare]
  | .member _ hb _ | .unary _ hb _ | .update _ _ hb _ | .unnamed hb _ => by
    simp only [Expr.bare, hb.bare]
  | .index hl hr _ | .binary _ hl hr _ | .assign _ hl hr _ => by
    simp only [Expr.bare, hl.bare, hr.bare]
  | .conditional hc hy hn _ => by simp only [Expr.bare, hc.bare, hy.bare, hn.bare]
  | .call hc ha _ => by simp only [Expr.bare, hc.bare, bareAll ha]
  | .intrinsic _ _ ha _ => by simp only [Expr.bare, bareAll ha]

theorem bareAll {es es' : List Expr} : CorrespondAll R es es' → Expr.bareAll es' = Expr.bareAll es
  | .nil => rfl
  | .cons he hrest => by rw [Expr.bareAll, Expr.bareAll, he.bare, bareAll hrest]
end

/-- The constant of a tree does not depend on its spans. -/
theorem fold {e e' : Expr} : e.Corresponds R e' → e'.fold = e.fold
  | .number .. | .text .. | .ident .. | .malformed _ | .member .. | .index .. | .update ..
  | .call .. | .intrinsic .. | .unnamed .. => by simp only [Expr.fold]
  | .unary _ ho _ => by simp only [Expr.fold, ho.fold]
  | .binary _ hl hr _ => by simp only [Expr.fold, hl.fold, hr.fold]
  | .conditional hc hy hn _ => by simp only [Expr.fold, hc.fold, hy.fold, hn.fold]
  | .assign _ _ hv _ => by simp only [Expr.fold, hv.fold]

mutual
/-- The nodes of trees that correspond have related spans, one by one. -/
theorem parts {e e' : Expr} : e.Corresponds R e' →
    List.Forall₂ (fun p p' : Expr => R p.span p'.span) e.parts e'.parts
  | .number _ h | .text _ h | .ident _ h | .malformed h => by
    simp only [Expr.parts]
    exact .cons h .nil
  | .member _ hb h | .unary _ hb h | .update _ _ hb h | .unnamed hb h => by
    simp only [Expr.parts]
    exact List.rel_append hb.parts (.cons h .nil)
  | .index hl hr h | .binary _ hl hr h | .assign _ hl hr h => by
    simp only [Expr.parts]
    exact List.rel_append (List.rel_append hl.parts hr.parts) (.cons h .nil)
  | .conditional hc hy hn h => by
    simp only [Expr.parts]
    exact List.rel_append (List.rel_append (List.rel_append hc.parts hy.parts) hn.parts)
      (.cons h .nil)
  | .call hc ha h => by
    simp only [Expr.parts]
    exact List.rel_append (List.rel_append hc.parts (partsAll ha)) (.cons h .nil)
  | .intrinsic _ hname ha h => by
    simp only [Expr.parts]
    exact .cons hname (List.rel_append (partsAll ha) (.cons h .nil))

theorem partsAll {es es' : List Expr} : CorrespondAll R es es' →
    List.Forall₂ (fun p p' : Expr => R p.span p'.span) (Expr.partsAll es) (Expr.partsAll es')
  | .nil => .nil
  | .cons he hrest => List.rel_append he.parts (partsAll hrest)
end

mutual
/-- The findings about the operators of trees that correspond do so too. -/
theorem survey {e e' : Expr} : e.Corresponds R e' →
    List.Forall₂ (Diagnostic.Corresponds R) e.survey.2 e'.survey.2
  | .number .. | .text .. | .ident .. | .malformed _ => by
    simp only [Expr.survey]
    exact .nil
  | .member _ hb _ | .unary _ hb _ | .update _ _ hb _ | .unnamed hb _ => by
    simp only [Expr.survey]
    exact hb.survey
  | .index hl hr _ | .assign _ hl hr _ => by
    simp only [Expr.survey]
    exact List.rel_append hl.survey hr.survey
  | .binary op hl hr h => by
    simp only [Expr.survey, survey_fst, hl.fold, hr.fold]
    refine List.rel_append (List.rel_append hl.survey hr.survey) ?_
    cases foldFault? op _ _ with
    | none => exact .nil
    | some fault => exact .cons (Diagnostic.labelled_corresponds h ..) .nil
  | .conditional hc hy hn _ => by
    simp only [Expr.survey]
    exact List.rel_append (List.rel_append hc.survey hy.survey) hn.survey
  | .call hc ha _ => by
    simp only [Expr.survey]
    exact List.rel_append hc.survey (surveyAll ha)
  | .intrinsic _ _ ha _ => by
    simp only [Expr.survey]
    exact surveyAll ha

theorem surveyAll {es es' : List Expr} : CorrespondAll R es es' →
    List.Forall₂ (Diagnostic.Corresponds R) (Expr.surveyAll es) (Expr.surveyAll es')
  | .nil => .nil
  | .cons he hrest => List.rel_append he.survey (surveyAll hrest)
end

/-- The node of a call is built alike from a callee and arguments that
correspond. -/
theorem callNode {callee callee' : Expr} {args args' : List Expr} {s s' : Span}
    (hc : callee.Corresponds R callee') (ha : CorrespondAll R args args') (h : R s s') :
    (Parser.callNode callee args s).Corresponds R (Parser.callNode callee' args' s') := by
  unfold Parser.callNode
  rw [intrinsic?_of_bare hc.bare]
  cases Parser.intrinsic? callee with
  | none => exact .call hc ha h
  | some fn => exact .intrinsic fn hc.span ha h

end Corresponds
end Expr
end TargetView
