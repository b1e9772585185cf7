import TupleLang.Proofs.HeapRoom
import TupleLang.Proofs.StraightCode
import TupleLang.X86.Selection

/-!
# Running the code of statements

Selected code runs on a machine with a store for variables.  `Machine.Storing` is a run together
with the addresses to which it stores words, and `Machine.Quietly` a run that neither stores
anything nor changes what a collection depends on.

For each kind of statement that allocation needs there is a lemma that runs the code of the
statement: from a machine at the code of `first :: rest` it comes to a machine at the code of `rest`
(`Image.HasStatements`).
-/

namespace TupleLang

open Stateful
open X86 (Instruction Operand Register)

/-! ## Code of statements in images -/

namespace Image

variable {image : Image} {context : Selection.Context}

/-- The code of the statements stands in the image from a number on. -/
def HasStatements (image : Image) (context : Selection.Context) (number : Nat)
    (statements : List Flow.Stmt) : Prop :=
  ∃ s s' code, Selection.statements context statements s = .ok (code, s') ∧
    image.HasCode number code

/-- The code of a statement begins with a remark perhaps. -/
theorem HasStatements.cons_inv {number : Nat} {first : Flow.Stmt} {rest : List Flow.Stmt}
    (h : image.HasStatements context number (first :: rest)) :
    ∃ s s' code, Selection.statement context first s = .ok (code, s') ∧
      image.HasCode number (Selection.remark context first) ∧
      image.HasCode (number + (Selection.remark context first).length) code ∧
      image.HasStatements context
        (number + (Selection.remark context first).length + code.length) rest := by
  obtain ⟨s, s', code, hcode, himage⟩ := h
  rw [Selection.statements, bind₂_eq_ok] at hcode
  obtain ⟨firstCode, s₁, restCode, hfirst, hrest, rfl⟩ := hcode
  refine ⟨s, s₁, firstCode, hfirst, himage.left.left, himage.left.right, s₁, s', restCode, hrest,
    ?_⟩
  have hright := himage.right
  rwa [List.length_append, ← Nat.add_assoc] at hright

end Image

namespace Machine

variable {image : Image} {context : Selection.Context} {machine machine' machine'' : Machine}
  {name : Name} {word : Word} {addresses : List Word} {source destination : Operand}

/-! ## Runs -/

/-- A run of the machine, with the addresses to which words are stored on the way, in order.  What a
collection moves is not counted. -/
inductive Storing (image : Image) : Machine → List Word → Machine → Prop
  | done (machine : Machine) : Storing image machine [] machine
  | quiet {machine next last : Machine} {addresses : List Word}
      (hstep : machine.step image = .ok (.running next)) (hmemory : next.memory = machine.memory)
      (hrest : Storing image next addresses last) : Storing image machine addresses last
  | store {machine next last : Machine} {address word : Word} {addresses : List Word}
      (hstep : machine.step image = .ok (.running next))
      (hmemory : machine.memory.store address word = .ok next.memory)
      (hrest : Storing image next addresses last) :
      Storing image machine (address :: addresses) last
  | collect {machine next last : Machine} {arguments : List Register} {addresses : List Word}
      (hcode : image.code[machine.next]? = some (.callq Name.collector arguments))
      (hstep : machine.step image = .ok (.running next))
      (hrest : Storing image next addresses last) : Storing image machine addresses last

/-- Runs add up, and so do the words they store. -/
theorem Storing.trans {addresses' : List Word} (h : machine.Storing image addresses machine')
    (h' : machine'.Storing image addresses' machine'') :
    machine.Storing image (addresses ++ addresses') machine'' := by
  induction h with
  | done machine => exact h'
  | quiet hstep hmemory _ ih => exact .quiet hstep hmemory (ih h')
  | store hstep hmemory _ ih => exact .store hstep hmemory (ih h')
  | collect hcode hstep _ ih => exact .collect hcode hstep (ih h')

/-- Such runs have steps. -/
theorem Storing.exists_steps (h : machine.Storing image addresses machine') :
    ∃ count, machine.Steps image count machine' := by
  induction h with
  | done machine => exact ⟨0, .refl machine⟩
  | quiet hstep _ _ ih | store hstep _ _ ih | collect _ hstep _ ih =>
    obtain ⟨count, hsteps⟩ := ih
    exact ⟨count + 1, .step hstep hsteps⟩

/-- The value of a variable. -/
def value? (machine : Machine) (name : Name) : Option Word :=
  machine.bindings.map (· name)

/-- A variable that has a value is read. -/
theorem read_var (h : machine.value? name = some word) : machine.read (.var name) = .ok word := by
  obtain ⟨values, hvalues, rfl⟩ := Option.map_eq_some_iff.mp h
  rw [read, hvalues]

/-- A run that stores nothing and leaves alone what a collection depends on. -/
structure Quietly (image : Image) (machine machine' : Machine) : Prop where
  storing : machine.Storing image [] machine'
  sameHeap : machine.SameHeap machine'
  rsp_eq : machine'.register .rsp = machine.register .rsp
  r15_eq : machine'.register .r15 = machine.register .r15
  isSome_eq : machine'.bindings.isSome = machine.bindings.isSome

namespace Quietly

theorem refl (image : Image) (machine : Machine) : machine.Quietly image machine :=
  ⟨.done machine, ⟨rfl, rfl, rfl, rfl⟩, rfl, rfl, rfl⟩

theorem trans (h : machine.Quietly image machine') (h' : machine'.Quietly image machine'') :
    machine.Quietly image machine'' where
  storing := h.storing.trans h'.storing
  sameHeap := h.sameHeap.trans h'.sameHeap
  rsp_eq := h'.rsp_eq.trans h.rsp_eq
  r15_eq := h'.r15_eq.trans h.r15_eq
  isSome_eq := h'.isSome_eq.trans h.isSome_eq

end Quietly

/-- The next instruction is executed. -/
theorem step_of_code {instruction : Instruction} {progress : Except MachineError Progress}
    (hcode : image.code[machine.next]? = some instruction)
    (h : (machine.continueAt (machine.next + 1)).execute image instruction = progress) :
    machine.step image = progress := by
  rw [step, hcode]
  exact h

/-- A move. -/
theorem step_movq (hcode : image.code[machine.next]? = some (.movq source destination))
    (hread : machine.read source = .ok word)
    (hwrite : (machine.continueAt (machine.next + 1)).write destination word = .ok machine') :
    machine.step image = .ok (.running machine') := by
  refine step_of_code hcode (Except.bind_eq_ok.mpr ⟨machine', ?_, rfl⟩)
  exact Except.bind_eq_ok.mpr ⟨word, (read_continueAt ..).trans hread, hwrite⟩

/-- An addition. -/
theorem step_addq {old : Word} (hcode : image.code[machine.next]? = some (.addq source destination))
    (hread : machine.read source = .ok word) (hold : machine.read destination = .ok old)
    (hwrite : (machine.continueAt (machine.next + 1)).write destination (old + word) =
      .ok machine') : machine.step image = .ok (.running machine') := by
  refine step_of_code hcode (Except.bind_eq_ok.mpr ⟨machine', ?_, rfl⟩)
  refine Except.bind_eq_ok.mpr ⟨word, (read_continueAt ..).trans hread, ?_⟩
  exact Except.bind_eq_ok.mpr ⟨old, (read_continueAt ..).trans hold, hwrite⟩

/-- A run that gives a variable a value and does nothing else that matters. -/
structure Sets (image : Image) (machine : Machine) (name : Name) (word : Word)
    (machine' : Machine) : Prop extends machine.Quietly image machine' where
  value_eq : machine'.value? name = some word
  other_eq : ∀ other, other ≠ name → machine'.value? other = machine.value? other

/-- An instruction that writes a word to a variable. -/
theorem exists_sets (hbound : machine.bindings.isSome = true)
    (hstep : ∀ m, (machine.continueAt (machine.next + 1)).write (.var name) word = .ok m →
      machine.step image = .ok (.running m)) :
    ∃ m, machine.Sets image name word m ∧ m.next = machine.next + 1 := by
  obtain ⟨values, hvalues⟩ := Option.isSome_iff_exists.mp hbound
  let m : Machine := { machine with
    next := machine.next + 1
    bindings := some fun other => if other = name then word else values other }
  have hwrite : (machine.continueAt (machine.next + 1)).write (.var name) word = .ok m := by
    rw [write, continueAt, hvalues]
  have hquiet : machine.Quietly image m :=
    ⟨.quiet (hstep m hwrite) rfl (.done m), ⟨rfl, rfl, rfl, rfl⟩, rfl, rfl, hbound.symm⟩
  refine ⟨m, ⟨hquiet, ?_, ?_⟩, rfl⟩
  · simp [value?, m]
  · intro other hother
    simp [value?, m, hvalues, hother]

section Statements

variable {first : Flow.Stmt} {rest code : List Flow.Stmt}
  {name source label positive negative : Name} {word left right : Word} {number : Nat}

/-- The remark before the code of a statement is skipped. -/
theorem exists_statement (h : image.HasStatements context machine.next (first :: rest)) :
    ∃ m s s' code, machine.Quietly image m ∧ m.bindings = machine.bindings ∧
      Selection.statement context first s = .ok (code, s') ∧ image.HasCode m.next code ∧
      image.HasStatements context (m.next + code.length) rest := by
  obtain ⟨s, s', code, hcode, hremark, himage, hrest⟩ := h.cons_inv
  rw [Selection.remark] at hremark himage hrest
  split at hremark
  · refine ⟨machine.continueAt (machine.next + 1), s, s', code, ?_, rfl, hcode, ?_, ?_⟩
    · exact ⟨.quiet (step_of_code hremark.head rfl) rfl (.done _), ⟨rfl, rfl, rfl, rfl⟩, rfl, rfl,
        rfl⟩
    · rename_i hcomments
      rwa [if_pos hcomments] at himage
    · rename_i hcomments
      rwa [if_pos hcomments] at hrest
  · rename_i hcomments
    rw [if_neg hcomments] at himage hrest
    exact ⟨machine, s, s', code, .refl image machine, rfl, hcode, himage, hrest⟩

/-- The operand of a variable. -/
theorem atom_var (hname : context.functionNames.contains name = false) (s : NameSupply) :
    Selection.atom context (.var name) s = .ok (([], .var name), s) := by
  rw [Selection.atom, hname]
  rfl

/-- A jump goes to the code of a block. -/
theorem Quietly.of_jump (hstep : machine.step image = .ok (.running (machine.continueAt number))) :
    machine.Quietly image (machine.continueAt number) :=
  ⟨.quiet hstep rfl (.done _), ⟨rfl, rfl, rfl, rfl⟩, rfl, rfl, rfl⟩

/-- A jump goes on at its label. -/
theorem step_jump (hcode : image.code[machine.next]? = some (.jump label))
    (hlabel : image.label label = .ok number) :
    machine.step image = .ok (.running (machine.continueAt number)) :=
  step_of_code hcode (Except.bind_eq_ok.mpr ⟨number, hlabel, rfl⟩)

/-- A comparison with the jumps after it goes to one of the two labels. -/
theorem Quietly.of_branch {condition : X86.Condition} {source destination : Operand}
    (hcode : image.HasCode machine.next
      [.cmpq source destination, .jumpIf condition positive, .jump negative])
    (hright : machine.read source = .ok right) (hleft : machine.read destination = .ok left)
    (hlabel : image.label (if condition.holds left right then positive else negative) =
      .ok number) :
    machine.Quietly image { machine with flags := (left, right), next := number } := by
  let compared : Machine := { machine with flags := (left, right), next := machine.next + 1 }
  have hcompare : machine.step image = .ok (.running compared) := by
    refine step_of_code hcode.head (Except.bind_eq_ok.mpr ⟨compared, ?_, rfl⟩)
    refine Except.bind_eq_ok.mpr ⟨right, (read_continueAt ..).trans hright, ?_⟩
    exact Except.bind_eq_ok.mpr ⟨left, (read_continueAt ..).trans hleft, rfl⟩
  have hquiet : machine.Quietly image compared :=
    ⟨.quiet hcompare rfl (.done _), ⟨rfl, rfl, rfl, rfl⟩, rfl, rfl, rfl⟩
  have htest : image.code[compared.next]? = some (.jumpIf condition positive) := hcode.tail.head
  cases hholds : condition.holds left right with
  | true =>
    rw [hholds, if_pos rfl] at hlabel
    have hjump : compared.step image = .ok (.running (compared.continueAt number)) := by
      refine step_of_code htest ?_
      rw [execute]
      exact (if_pos hholds).trans (Except.bind_eq_ok.mpr ⟨number, hlabel, rfl⟩)
    exact hquiet.trans (.of_jump hjump)
  | false =>
    rw [hholds, if_neg Bool.false_ne_true] at hlabel
    have hpass : compared.step image =
        .ok (.running (compared.continueAt (compared.next + 1))) := by
      refine step_of_code htest ?_
      rw [execute]
      exact if_neg (by rw [← Bool.not_eq_true] at hholds; exact hholds)
    have hjump : (compared.continueAt (compared.next + 1)).step image =
        .ok (.running (compared.continueAt number)) :=
      step_jump hcode.tail.tail.head hlabel
    exact hquiet.trans (.trans (.of_jump hpass) (.of_jump hjump))

/-- A move to a register that a collection does not depend on. -/
theorem Quietly.of_movq {source : Operand} {full : Register} (hrsp : full ≠ .rsp)
    (hr15 : full ≠ .r15) (hcode : image.code[machine.next]? = some (.movq source (.register full)))
    (hread : machine.read source = .ok word) :
    machine.Quietly image ((machine.continueAt (machine.next + 1)).setRegister full word) where
  storing := .quiet (step_movq hcode hread rfl) rfl (.done _)
  sameHeap := ⟨rfl, rfl, rfl, rfl⟩
  rsp_eq := register_setRegister_of_ne _ _ hrsp.symm
  r15_eq := register_setRegister_of_ne _ _ hr15.symm
  isSome_eq := rfl

/-- Only registers change in a call of the run-time system. -/
theorem sameHeap_clobberRegisters (machine : Machine) :
    machine.SameHeap machine.clobberRegisters :=
  ⟨rfl, rfl, rfl, rfl⟩

/-- A collection makes room, unless the stack pointer is no multiple of sixteen. -/
theorem exists_collect {heap roots : AddressRange} {free : Word} {tuples : List Word}
    {words bytes : Nat} (hbytes : Word.ofCount bytes = 8 * Word.ofCount words)
    (hcan : machine.CanAllocate heap roots free tuples words)
    (h : image.HasStatements context machine.next (.collect bytes :: rest)) :
    (machine.register .rsp % 16 ≠ 0 ∧ ∃ m, machine.Storing image [] m ∧
      m.step image = .error (.misalignedCall Name.collector (machine.register .rsp))) ∨
    ∃ m heap' free' tuples', machine.Storing image [] m ∧
      m.HasRoom heap' free' tuples' words ∧ m.bindings = machine.bindings ∧
      image.HasStatements context m.next rest := by
  obtain ⟨m, s, s', instructions, hquiet, hbindings, hcode, himage, hrest⟩ := exists_statement h
  cases hcode
  let m₁ := (m.continueAt (m.next + 1)).setRegister .rdi (m.register .r15)
  have hfirst : m.Quietly image m₁ := .of_movq (by decide) (by decide) himage.head rfl
  let m₂ := (m₁.continueAt (m₁.next + 1)).setRegister .rsi (Word.ofCount bytes)
  have hsecond : m₁.Quietly image m₂ := .of_movq (by decide) (by decide) himage.tail.head rfl
  have hquiet₂ := hquiet.trans (hfirst.trans hsecond)
  have hcall : image.code[m₂.next]? = some (.callq Name.collector Register.runtimeArguments) :=
    himage.tail.tail.head
  let m₃ := m₂.continueAt (m₂.next + 1)
  have hrsp : m₃.register .rsp = machine.register .rsp := hquiet₂.rsp_eq
  have hrdi : m₃.register .rdi = roots.finish := by
    have hkeep : m₃.register .rdi = m₁.register .rdi := register_setRegister_of_ne _ _ nofun
    rw [hkeep, register_setRegister_self, hquiet.r15_eq, hcan.roots_finish]
  have hrsi : m₃.register .rsi = 8 * Word.ofCount words :=
    (register_setRegister_self ..).trans hbytes
  have hservice : Service.ofName? Name.collector = some .collect := by decide
  by_cases haligned : machine.register .rsp % 16 = 0
  · right
    have hcan₃ : m₃.CanAllocate heap roots free tuples words :=
      hcan.congr (hquiet₂.sameHeap.trans ⟨rfl, rfl, rfl, rfl⟩) hquiet₂.r15_eq
    obtain ⟨m₄, heap', free', tuples', hcollect, hroom, hnext, hbindings₄⟩ := hcan₃.exists_collect
    have hserve : m₃.serve .collect = .ok m₄.clobberRegisters :=
      Except.bind_eq_ok.mpr ⟨m₄, hrdi ▸ hrsi ▸ hcollect, rfl⟩
    have hstep : m₂.step image = .ok (.running m₄.clobberRegisters) := by
      refine step_of_code hcall (Except.bind_eq_ok.mpr ⟨(), ?_, ?_⟩)
      · exact if_neg (not_not.mpr (hrsp ▸ haligned))
      · rw [hservice]
        exact Except.bind_eq_ok.mpr ⟨_, hserve, rfl⟩
    refine ⟨_, heap', free', tuples', hquiet₂.storing.trans (.collect hcall hstep (.done _)),
      hroom.congr (sameHeap_clobberRegisters m₄), hbindings₄.trans hbindings, ?_⟩
    have hplace : m₄.clobberRegisters.next = m.next + 3 := hnext
    rw [hplace]
    exact hrest
  · left
    refine ⟨haligned, m₂, hquiet₂.storing, step_of_code hcall ?_⟩
    have hrefuse : m₃.checkAlignment Name.collector =
        .error (.misalignedCall Name.collector (machine.register .rsp)) := by
      rw [checkAlignment, hrsp]
      exact if_pos haligned
    rw [execute, hrefuse]
    rfl

end Statements

end Machine

end TupleLang
