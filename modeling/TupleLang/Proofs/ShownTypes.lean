import TupleLang.Proofs.TypingRules

/-!
# Types as they are shown

The text of a type says which type it is, and it says where it ends: of two texts, neither is the
beginning of the other, unless the types are the same (`Ty.text_unambiguous`).  The second part is
what carries the induction.  A function type has no bracket around its output, so inside a list
only the output itself tells where the next comma belongs; `Ty.IsTold` therefore speaks about the
text of a type with anything behind it.

The lists inside brackets differ in one thing only.  A tuple type with one field has a comma before
its closing bracket, and a function type with one parameter has not, so both are read through
`Ty.enclosed`, which is told what stands after a member that is alone.

The checker reports a mismatch only of types that differ (`Typing.apt_checkProgram`).  Hence the
message of a mismatch never shows the same text twice.
-/

namespace TupleLang

namespace Ty

/-! ## Texts -/

/-- What stands behind the first member of a list of types, up to the closing bracket: the other
members, each after a comma, or `last` if there are none. -/
def others (last : List Char) : List Ty → List Char
  | [] => last
  | ty :: tys => ',' :: ' ' :: (ty.text.toList ++ others [')'] tys)

/-- The members of a list of types, up to the closing bracket. -/
def enclosed (last : List Char) : List Ty → List Char
  | [] => [')']
  | ty :: tys => ty.text.toList ++ others last tys

/-- The members of a list, with the closing bracket. -/
theorem toList_intercalate_texts (tys : List Ty) :
    (", ".intercalate (texts tys)).toList ++ [')'] = enclosed [')'] tys := by
  induction tys with
  | nil => simp [texts, enclosed]
  | cons ty tys ih =>
    cases tys with
    | nil => simp [texts, enclosed, others]
    | cons next tys => simp_all [texts, enclosed, others]

/-- The text of a tuple type. -/
theorem toList_text_tuple (fields : List Ty) :
    (tuple fields).text.toList = '(' :: enclosed [',', ')'] fields := by
  rcases fields with - | ⟨first, - | ⟨second, fields⟩⟩
  · simp [text, texts, enclosed]
  · simp [text, enclosed, others]
  · have h := toList_intercalate_texts (first :: second :: fields)
    simp_all [text, enclosed, others]

/-- The text of a function type. -/
theorem toList_text_function (parameters : List Ty) (output : Ty) :
    (function parameters output).text.toList =
      'f' :: 'n' :: '(' :: (enclosed [')'] parameters ++ ' ' :: '-' :: '>' :: ' ' ::
        output.text.toList) := by
  simp [text, ← toList_intercalate_texts]

/-- The text of the type of integers. -/
theorem toList_text_int : int.text.toList = ['i', 'n', 't'] := by
  simp [text]

/-- The text of the type of truth values. -/
theorem toList_text_bool : bool.text.toList = ['b', 'o', 'o', 'l'] := by
  simp [text]

attribute [local simp] toList_text_tuple toList_text_function toList_text_int toList_text_bool

/-- The text of a type begins with a letter or an opening bracket. -/
theorem text_append_ne (a : Ty) (s t : List Char) : a.text.toList ++ s ≠ ')' :: t := by
  cases a <;> simp

/-- The text of the type can be told from whatever stands behind it. -/
def IsTold (a : Ty) : Prop :=
  ∀ (b : Ty) (s t : List Char), a.text.toList ++ s = b.text.toList ++ t → a = b ∧ s = t

variable {as bs : List Ty} {last s t : List Char}

/-- A list whose members are told is told as well. -/
theorem others_append_inj (hlast : ∀ s t, last ++ s ≠ ',' :: ' ' :: t) (has : ∀ a ∈ as, a.IsTold)
    (h : others last as ++ s = others last bs ++ t) : as = bs ∧ s = t := by
  induction as generalizing last bs with
  | nil =>
    cases bs with
    | nil => exact ⟨rfl, List.append_cancel_left h⟩
    | cons b bs => exact absurd h (hlast _ _)
  | cons a as ih =>
    obtain ⟨ha, has⟩ := List.forall_mem_cons.mp has
    cases bs with
    | nil => exact absurd h.symm (hlast _ _)
    | cons b bs =>
      simp only [others, List.cons_append, List.cons.injEq, true_and, List.append_assoc] at h
      obtain ⟨rfl, hrest⟩ := ha _ _ _ h
      obtain ⟨rfl, rfl⟩ := ih (by simp) has hrest
      exact ⟨rfl, rfl⟩

/-- Lists of types can be told from what stands behind their closing brackets, if their members
can. -/
theorem enclosed_append_inj (hlast : ∀ s t, last ++ s ≠ ',' :: ' ' :: t)
    (has : ∀ a ∈ as, a.IsTold) (h : enclosed last as ++ s = enclosed last bs ++ t) :
    as = bs ∧ s = t := by
  cases as with
  | nil =>
    cases bs with
    | nil => exact ⟨rfl, List.append_cancel_left h⟩
    | cons b bs =>
      rw [enclosed, enclosed, List.append_assoc] at h
      exact absurd h.symm (text_append_ne _ _ _)
  | cons a as =>
    obtain ⟨ha, has⟩ := List.forall_mem_cons.mp has
    rw [enclosed, List.append_assoc] at h
    cases bs with
    | nil => exact absurd h (text_append_ne _ _ _)
    | cons b bs =>
      rw [enclosed, List.append_assoc] at h
      obtain ⟨rfl, hrest⟩ := ha _ _ _ h
      obtain ⟨rfl, rfl⟩ := others_append_inj hlast has hrest
      exact ⟨rfl, rfl⟩

/-- The first character says what kind of type it is, and the members of its lists are told apart
by the induction. -/
theorem isTold : ∀ a : Ty, a.IsTold
  | .int, b, s, t, h => by cases b <;> simp_all
  | .bool, b, s, t, h => by cases b <;> simp_all
  | .tuple fields, b, s, t, h => by
    cases b with
    | tuple fields' =>
      simp only [toList_text_tuple, List.cons_append, List.cons.injEq, true_and] at h
      obtain ⟨rfl, rfl⟩ := enclosed_append_inj (by simp) (fun a _ => isTold a) h
      exact ⟨rfl, rfl⟩
    | _ => simp at h
  | .function parameters output, b, s, t, h => by
    cases b with
    | function parameters' output' =>
      simp only [toList_text_function, List.cons_append, List.cons.injEq, true_and,
        List.append_assoc] at h
      obtain ⟨rfl, houtput⟩ := enclosed_append_inj (by simp) (fun a _ => isTold a) h
      -- no bracket closes the output, so it has to say itself where it ends
      simp only [List.cons.injEq, true_and] at houtput
      obtain ⟨rfl, rfl⟩ := isTold output _ _ _ houtput
      exact ⟨rfl, rfl⟩
    | _ => simp at h

/-- A text that begins with the text of a type is the text of no other type. -/
theorem eq_of_text_append {a b : Ty} {rest : List Char}
    (h : a.text.toList ++ rest = b.text.toList) : a = b :=
  (isTold a b rest [] (by rw [h, List.append_nil])).1

end Ty

/-! ## Mismatches -/

/-- The error does not report that a type differs from itself. -/
def CompileError.IsApt : CompileError → Prop
  | .type (.mismatch expected actual) _ => expected ≠ actual
  | _ => True

namespace Typing

/-- The computation reports apt errors only. -/
abbrev Apt {α : Type} (x : Except CompileError α) : Prop :=
  Except.FailsWith CompileError.IsApt x

/-- The check reports apt errors only, whatever is known about variables. -/
def AptCheck {α : Type} (check : Check α) : Prop :=
  ∀ Γ, Apt (check Γ)

variable {α β : Type} {context : Context} {site : Site}

/-- Two apt checks are apt one after the other. -/
theorem AptCheck.bind {x : Check α} {f : α → Check β} (hx : AptCheck x)
    (hf : ∀ a, AptCheck (f a)) : AptCheck (x >>= f) :=
  fun Γ => (hx Γ).bind fun p => hf p.1 p.2

/-- A result is no error. -/
theorem AptCheck.pure (a : α) : AptCheck (Pure.pure a) :=
  fun _ => .ok _

/-- An apt computation is an apt check. -/
theorem AptCheck.lift {x : Except CompileError α} (hx : Apt x) : AptCheck (liftM x) :=
  fun _ => hx.bind fun _ => .ok _

/-- A name that must not be bound is no mismatch. -/
theorem apt_bindingName (lowered : Bool) (name : Name) : Apt (bindingName lowered name site) := by
  unfold bindingName
  split
  · exact .error trivial
  · exact .ok ()

/-- A mismatch is of two types that differ. -/
theorem apt_expect (expected actual : Ty) : Apt (expect expected actual site) := by
  unfold expect
  split
  · exact .ok ()
  · exact .error ‹_›

/-- A missing field is no mismatch. -/
theorem apt_fieldType (ty : Ty) (index : Word) : Apt (fieldType ty index site) := by
  unfold fieldType
  split
  · split
    · exact .ok _
    · exact .error trivial
  · exact .error trivial

/-- Nor is a type that is not represented. -/
theorem apt_representable (ty : Ty) : Apt (representable ty site) := by
  unfold representable
  split
  · exact .error trivial
  · exact .ok ()

/-- Several types are expected one by one. -/
theorem apt_forM_expect (expected : Ty) (types : List Ty) (ty : Ty) :
    Apt (do types.forM (expect expected · site); return ty) := by
  induction types with
  | nil => exact .ok ty
  | cons first types ih =>
    change Apt ((expect expected first site >>= fun _ => _) >>= _)
    rw [bind_assoc]
    exact (apt_expect expected first).bind fun _ => ih

/-- What an operator reports of its operands is apt: a type that cannot be compared is not `int`. -/
theorem apt_resultType (operator : Operator) (types : List Ty) :
    Apt (resultType operator types site) := by
  cases operator with
  | eq | ne =>
    rcases types with - | ⟨lhs, - | ⟨rhs, - | ⟨_, _⟩⟩⟩
    case cons.cons.nil =>
      cases lhs with
      | int | bool => exact (apt_expect _ rhs).bind fun _ => .ok _
      | tuple | function => exact .error (by simp [CompileError.IsApt])
    all_goals exact .error trivial
  | subscript => exact .error trivial
  | _ => exact apt_forM_expect _ types _

/-- Inferring several types is apt if each of them is. -/
theorem apt_inferList {es : List Expr} (h : ∀ e ∈ es, AptCheck (e.infer context)) :
    AptCheck (Expr.inferList context es) := by
  induction es with
  | nil => exact .pure []
  | cons e es ih =>
    obtain ⟨he, hes⟩ := List.forall_mem_cons.mp h
    exact he.bind fun _ => (ih hes).bind fun _ => .pure _

/-- So is checking arguments. -/
theorem apt_checkArguments {es : List Expr} (h : ∀ e ∈ es, AptCheck (e.infer context))
    (tys : List Ty) : AptCheck (Expr.checkArguments context site tys es) := by
  induction es generalizing tys with
  | nil => cases tys <;> exact .pure ()
  | cons e es ih =>
    obtain ⟨he, hes⟩ := List.forall_mem_cons.mp h
    cases tys with
    | nil => exact .pure ()
    | cons ty tys => exact he.bind fun _ => .bind (.lift (apt_expect ty _)) fun _ => ih hes tys

/-- So is checking a block. -/
theorem apt_checkBlock {ss : List Stmt} (h : ∀ s ∈ ss, AptCheck (s.check context)) :
    AptCheck (Stmt.checkBlock context ss) := by
  induction ss with
  | nil => exact .pure ()
  | cons s ss ih =>
    obtain ⟨hs, hss⟩ := List.forall_mem_cons.mp h
    exact hs.bind fun _ => ih hss

/-- Whatever an expression or a statement leads to, all mismatches come from `expect`, except that
of an operand that cannot be compared. -/
theorem apt_check : TreeInduction (fun e => AptCheck (e.infer context))
    (fun s => AptCheck (s.check context)) where
  var name := by
    rw [Expr.infer]
    refine .bind (fun _ => .ok _) fun Γ => ?_
    split
    · exact .pure _
    · exact fun _ => .error trivial
  const value := by cases value <;> exact .pure _
  primitive operator operands ih := by
    by_cases hpair : operator = .subscript ∧ ∃ tuple index, operands = [tuple, index]
    · obtain ⟨rfl, tuple, index, rfl⟩ := hpair
      refine (ih tuple List.mem_cons_self).bind fun ty => ?_
      split
      · exact .lift (apt_fieldType _ _)
      · exact fun _ => .error trivial
    · rw [Expr.infer]
      · dsimp only
        split
        · exact fun _ => .error trivial
        · exact (apt_inferList ih).bind fun _ => .lift (apt_resultType _ _)
      · exact fun tuple index ho hoperands => hpair ⟨ho, tuple, index, hoperands⟩
  call target arguments iht iha := by
    rw [Expr.infer]
    refine iht.bind fun ty => ?_
    split
    · dsimp only
      split
      · exact fun _ => .error trivial
      · exact (apt_checkArguments iha _).bind fun _ => .pure _
    · exact fun _ => .error trivial
  tuple fields ih :=
    (apt_inferList ih).bind fun _ => .bind (.lift (apt_representable _)) fun _ => .pure _
  begin statements value ihs ihv := (apt_checkBlock ihs).bind fun _ => ihv
  global name := .pure _
  allocate bytes ty := by
    cases ty with
    | tuple fields => exact .pure _
    | _ => exact fun _ => .error trivial
  assign target value ih := by
    refine .bind (.lift (apt_bindingName _ _)) fun _ => ?_
    dsimp only
    split
    · exact fun _ => .error trivial
    · refine ih.bind fun ty => .bind (fun _ => .ok _) fun Γ => ?_
      split
      · exact .lift (apt_expect _ _)
      · exact fun _ => .ok _
  print value ih := by
    refine ih.bind fun ty => ?_
    split
    · exact fun _ => .error trivial
    · exact .pure ()
  ifElse condition positive negative ihc ihp ihn :=
    ihc.bind fun _ => .bind (.lift (apt_expect _ _)) fun _ =>
      (apt_checkBlock ihp).bind fun _ => apt_checkBlock ihn
  whileDo condition body ihc ihb :=
    ihc.bind fun _ => .bind (.lift (apt_expect _ _)) fun _ => apt_checkBlock ihb
  ret value ih := by
    rw [Stmt.check]
    split
    · exact ih.bind fun _ => .lift (apt_expect _ _)
    · exact fun _ => .error trivial
  define name parameters output body _ := fun _ => .error trivial
  collect bytes := .pure ()
  setField tuple index value ih := by
    refine .bind (fun _ => .ok _) fun Γ => ?_
    split
    · exact .bind (.lift (apt_fieldType _ _)) fun _ => ih.bind fun _ => .lift (apt_expect _ _)
    · exact fun _ => .error trivial

/-- Adding a signature is apt. -/
theorem apt_addSignature (lowered : Bool) (functions : Std.ExtTreeMap Name Ty)
    (function : Function) : Apt (addSignature lowered functions function) := by
  refine (apt_bindingName lowered function.name).bind fun _ => ?_
  dsimp only
  split
  · exact .error trivial
  · exact (apt_representable _).bind fun _ => .ok _

/-- Adding a parameter is apt. -/
theorem apt_addParameter (name : Name) (known : VariableTypes) (parameter : Name × Ty) :
    Apt (addParameter context name known parameter) := by
  refine (apt_bindingName context.lowered parameter.1).bind fun _ => ?_
  dsimp only
  split
  · exact .error trivial
  · split
    · exact .error trivial
    · exact .ok _

/-- Checking a statement at the top level is apt. -/
theorem apt_checkTopLevel (progress : Progress) (statement : Stmt) :
    Apt (checkTopLevel context progress statement) := by
  unfold checkTopLevel
  split
  · refine .bind (.bind (.foldlM (apt_addParameter _) _ _) fun known => ?_) fun _ => .ok _
    exact (apt_checkBlock (apt_check.stmts _) known).bind fun _ => .ok _
  · exact (apt_check.stmt statement _).bind fun _ => .ok _

/-- The checker reports a mismatch only of types that differ. -/
theorem apt_checkProgram (lowered : Bool) (program : Program) :
    Apt (checkProgram lowered program) :=
  .bind (.foldlM (apt_addSignature lowered) _ _) fun _ =>
    .bind (.foldlM apt_checkTopLevel _ _) fun _ => .ok _

end Typing

open Typing

/-- The text of a type is unambiguous: types with the same text are the same, and so are types of
which one's text is the beginning of the other one's.  Hence a mismatch that the checker reports,
in a program as it is written or after lowering, shows two different texts. -/
theorem Ty.text_unambiguous (a b : Ty) :
    (a.text = b.text → a = b) ∧ (a.text.toList <+: b.text.toList → a = b) ∧
      ∀ lowered program site,
        checkProgram lowered program = .error (.type (.mismatch a b) site) →
        (TypeFault.mismatch a b).message =
          "expected `" ++ a.text ++ "` but found `" ++ b.text ++ "`" ∧ a.text ≠ b.text := by
  have hinj : a.text = b.text → a = b := by
    intro h
    refine eq_of_text_append (?_ : a.text.toList ++ [] = b.text.toList)
    rw [h, List.append_nil]
  refine ⟨hinj, ?_, fun lowered program site h => ⟨rfl, ?_⟩⟩
  · rintro ⟨rest, h⟩
    exact eq_of_text_append h
  · exact mt hinj (apt_checkProgram lowered program _ h)

/-- A function should return a pair, of a function and a number, and returns a tuple with a
function that gives a pair. -/
def Program.regrouped : Program := ⟨[
  .define "pair" [] (.tuple [.int, .int]) [.ret (.tuple [.int 1, .int 2])],
  .define "wrong" [] (.tuple [.function [] .int, .int]) [.ret (.tuple [.var "pair"])]]⟩

/-- The two types have the same parts in the same order, and differ in their brackets. -/
theorem Ty.text_unambiguous_regrouped :
    (tuple [function [] int, int]).text = "(fn() -> int, int)" ∧
    (tuple [function [] (tuple [int, int])]).text = "(fn() -> (int, int),)" ∧
    checkProgram false Program.regrouped =
      .error (.type (.mismatch (tuple [function [] int, int])
        (tuple [function [] (tuple [int, int])])) (.statement (.ret (.tuple [.var "pair"])))) ∧
    (tuple [function [] int, int]).text ≠ (tuple [function [] (tuple [int, int])]).text :=
  ⟨by decide, by decide, rfl, ((text_unambiguous _ _).2.2 false Program.regrouped _ rfl).2⟩

end TupleLang
