import TupleLang.Program.Allocation
import TupleLang.Proofs.Running

/-!
# Building a tuple step by step

A tuple literal makes a tuple at once.  The statements that make its allocation explicit
(`Allocation.code`) save the fields, ask for room, take a tuple whose fields are all zero, and set
the fields one by one.  Here they are run: `runs_save`, `runs_reserveRoom` and `runs_setFields` do
one part each, and `runs_code` puts them together.

In the end the heap is the one that the literal would have left, with the tuple at the same place.
So two runs, one with literals and one without, have the same heap wherever they are compared, and
tuples need no renaming.
-/

namespace TupleLang

open Stateful

namespace Allocation

/-- The statements that build a tuple, with the names they use. -/
def code (target : Name) (saved : List (Name × Expr)) (used next limit : Name) (types : List Ty) :
    List Stmt :=
  let bytes := Header.allocationSize types.length
  saved.map (fun (name, field) => .assign name field) ++ reserveRoom used next limit bytes ++
    [.assign target (.allocate bytes (.tuple types))] ++ setFields target 0 (saved.map Prod.fst)

theorem filterMap_setFields (tuple : Name) (index : Nat) (names : List Name) :
    (setFields tuple index names).filterMap Stmt.function? = [] := by
  induction names generalizing index with
  | nil => rfl
  | cons name names ih => exact ih (index + 1)

/-- The code defines no function. -/
theorem filterMap_code (target : Name) (saved : List (Name × Expr)) (used next limit : Name)
    (types : List Ty) :
    (code target saved used next limit types).filterMap Stmt.function? = [] := by
  have hsaved : (saved.map fun (name, field) => Stmt.assign name field).filterMap Stmt.function? =
      [] := by simp [Stmt.function?]
  unfold code
  rw [List.filterMap_append, List.filterMap_append, List.filterMap_append, filterMap_setFields,
    hsaved]
  rfl

variable {environment : TypeEnvironment} {function : Name} {fields : List Expr} {s s' : NameSupply}

/-- An atom with a type is an atom. -/
theorem isAtomic_of_typeOfAtom {e : Expr} {ty : Ty}
    (h : typeOfAtom environment function e = .ok ty) :
    e.isAtomic = true := by
  cases e with
  | var name => rfl
  | const value => rfl
  | _ => cases h

/-- Finding the types of atoms takes no name. -/
theorem mapM_typeOfAtom_eq_ok {types : List Ty}
    (h : (fields.mapM fun field => (typeOfAtom environment function field : Lowering Ty)) s =
      .ok (types, s')) :
    s' = s ∧ types.length = fields.length ∧ ∀ field ∈ fields, field.isAtomic = true := by
  induction fields generalizing types with
  | nil =>
    cases h
    exact ⟨rfl, rfl, List.forall_mem_nil _⟩
  | cons field fields ih =>
    rw [List.mapM_cons, bind₂_eq_ok] at h
    obtain ⟨ty, s₁, rest, hty, hrest, rfl⟩ := h
    rw [liftM_eq_ok] at hty
    obtain ⟨hty, rfl⟩ := hty
    obtain ⟨rfl, hlength, hatomic⟩ := ih hrest
    exact ⟨rfl, by simp [hlength],
      List.forall_mem_cons.mpr ⟨isAtomic_of_typeOfAtom hty, hatomic⟩⟩

/-- Saving fields takes one name for each of them. -/
theorem saveFields_eq (fields : List Expr) (s : NameSupply) :
    saveFields fields s =
      .ok (((List.range' (s.issued + 1) fields.length).map (NameSupply.nameAt "field")).zip fields,
        ⟨s.issued + fields.length⟩) := by
  induction fields generalizing s with
  | nil => rfl
  | cons field fields ih =>
    rw [saveFields, bind_of_ok (Lowering.fresh_eq_ok _ _), bind_of_ok (ih _)]
    simp only [List.length_cons, List.range'_succ, List.map_cons, List.zip_cons_cons]
    have hissued : s.issued + 1 + fields.length = s.issued + (fields.length + 1) := by omega
    rw [hissued]
    rfl

/-- A tuple literal becomes the code that builds the tuple, with names of its own. -/
theorem ofTuple_eq_ok {target : Name} {ss : List Stmt}
    (h : ofTuple environment function target fields s = .ok (ss, s')) :
    s'.issued = s.issued + (fields.length + 3) ∧ (∀ field ∈ fields, field.isAtomic = true) ∧
      ∃ types, types.length = fields.length ∧ ss = code target
        (((List.range' (s.issued + 1) fields.length).map (NameSupply.nameAt "field")).zip fields)
        (NameSupply.nameAt "end" (s.issued + fields.length + 1))
        (NameSupply.nameAt "next" (s.issued + fields.length + 2))
        (NameSupply.nameAt "limit" (s.issued + fields.length + 3)) types := by
  rw [ofTuple, bind_eq_ok] at h
  obtain ⟨types, s₁, htypes, h⟩ := h
  obtain ⟨rfl, hlength, hatomic⟩ := mapM_typeOfAtom_eq_ok htypes
  rw [bind_of_ok (saveFields_eq _ _), bind_of_ok (Lowering.fresh_eq_ok _ _),
    bind_of_ok (Lowering.fresh_eq_ok _ _), bind_of_ok (Lowering.fresh_eq_ok _ _)] at h
  cases h
  exact ⟨rfl, hatomic, types, hlength, rfl⟩

end Allocation

namespace Interpreter

variable {steady : Bool} {functions : Std.ExtTreeMap Name Function}

variable {values : List Value} {next limit target : Name} {taken : List Name}
  {saved : List (Name × Expr)} {τ : Store}

/-- Saving atoms in new variables: after it the variables hold their values. -/
theorem runs_save (hatomic : ∀ field ∈ saved, field.2.isAtomic = true)
    (hnew : ∀ field ∈ saved, field.1 ∈ taken)
    (hold : ∀ field ∈ saved, ∀ name ∈ field.2.ownNames, name ∉ taken)
    (hnodup : (saved.map Prod.fst).Nodup)
    (h : Runs steady functions (.exprs (saved.map Prod.snd)) τ (.values values) τ) :
    ∃ τ₁, Runs steady functions (.block (saved.map fun (name, field) => .assign name field)) τ
        (.ended .next) τ₁ ∧
      τ.ChangesOnly (· ∈ saved.map Prod.fst) τ₁ ∧ τ₁.heap = τ.heap ∧ τ₁.output = τ.output ∧
      saved.map (τ₁.locals[·.1]?) = values.map some := by
  induction saved generalizing τ values with
  | nil =>
    cases h
    exact ⟨τ, .blockNil, fun _ _ => rfl, rfl, rfl, rfl⟩
  | cons field saved ih =>
    obtain ⟨hfield, hatomic⟩ := List.forall_mem_cons.mp hatomic
    obtain ⟨hfirst, hnew⟩ := List.forall_mem_cons.mp hnew
    obtain ⟨-, hold⟩ := List.forall_mem_cons.mp hold
    obtain ⟨hnotin, hnodup⟩ := List.nodup_cons.mp hnodup
    generalize hes : List.map Prod.snd (field :: saved) = es at h
    cases h with
    | exprsNil => cases hes
    | @exprsCons _ τ' _ _ _ v vs hv hs =>
      cases hes
      cases hv.store_eq_of_isAtomic hfield
      -- The later fields are evaluated after the first one has been saved.
      have hinsert : τ.ChangesOnly (· = field.1)
          { τ with locals := τ.locals.insert field.1 v } :=
        Store.changesOnly_insert (p := (· = field.1)) rfl τ v
      have hatoms : ∀ e ∈ saved.map Prod.snd, e.isAtomic = true :=
        List.forall_mem_map.mpr hatomic
      have hnames : ∀ e ∈ saved.map Prod.snd, ∀ name ∈ e.ownNames, name ≠ field.1 :=
        List.forall_mem_map.mpr fun other hother name hname he =>
          hold other hother name hname (he ▸ hfirst)
      obtain ⟨-, hs'⟩ := hs.atoms_congr hatoms
        (fun e he name hname => hinsert name (hnames e he name hname)) fun _ => rfl
      obtain ⟨τ₁, hrun, hchanges, hheap, houtput, hvalues⟩ := ih hatomic hnew hold hnodup hs'
      refine ⟨τ₁, .blockNext (.assign hv) hrun, ?_, hheap, houtput, ?_⟩
      · exact hinsert.trans hchanges (fun _ hn => by simp [hn]) (fun _ hn => by simp [hn])
      · rw [List.map_cons, hvalues, hchanges _ hnotin]
        simp

/-- The collector is asked for room, or it is not. -/
theorem runs_askForRoom {a b : Word} (bytes : Nat) (ha : τ.locals[next]? = some (.int a))
    (hb : τ.locals[limit]? = some (.int b)) :
    Runs steady functions (.stmt (.ifElse (.primitive .lt [.var next, .var limit]) []
      [.collect bytes])) τ (.ended .next) τ := by
  have htest : Runs steady functions (.expr (.primitive .lt [.var next, .var limit])) τ
      (.value (.bool (decide (a < b)))) τ :=
    .primitive rfl (.exprsCons (.local ha) (.exprsCons (.local hb) .exprsNil)) rfl
  cases hlt : decide (a < b) with
  | true => exact .ifTrue (hlt ▸ htest) .blockNil
  | false => exact .ifFalse (hlt ▸ htest) (.single (.collect bytes))

/-- Looking for room changes nothing but the variables it uses. -/
theorem runs_reserveRoom (steady : Bool) (functions : Std.ExtTreeMap Name Function) (used : Name)
    (hne : limit ≠ next) (bytes : Nat) (τ : Store) :
    ∃ τ₁, Runs steady functions (.block (Allocation.reserveRoom used next limit bytes)) τ
        (.ended .next) τ₁ ∧
      τ.ChangesOnly (· ∈ [used, next, limit]) τ₁ ∧ τ₁.heap = τ.heap ∧ τ₁.output = τ.output := by
  let τ₁ : Store := { τ with locals := τ.locals.insert used (.int 0) }
  let τ₂ : Store := { τ₁ with locals := τ₁.locals.insert next (.int (0 + Word.ofCount bytes)) }
  let τ₃ : Store := { τ₂ with locals := τ₂.locals.insert limit (.int Int64.maxValue) }
  have hused : Runs steady functions (.stmt (.assign used (.global Name.freePointer))) τ
      (.ended .next) τ₁ := .assign (.global Name.freePointer)
  have hnext : Runs steady functions (.stmt (.assign next (.primitive .add [.var used,
      .int (Word.ofCount bytes)]))) τ₁ (.ended .next) τ₂ := by
    have hvar : τ₁.locals[used]? = some (.int 0) := by simp [τ₁]
    exact .assign (.primitive rfl (.exprsCons (.local hvar) (.exprsCons (.int _) .exprsNil)) rfl)
  have hlimit : Runs steady functions (.stmt (.assign limit (.global Name.fromspaceEnd))) τ₂
      (.ended .next) τ₃ := .assign (.global Name.fromspaceEnd)
  have ha : τ₃.locals[next]? = some (.int (0 + Word.ofCount bytes)) :=
    (Store.changesOnly_insert (p := (· = limit)) rfl τ₂ _ next hne.symm).trans (by simp [τ₂])
  have hb : τ₃.locals[limit]? = some (.int Int64.maxValue) := by simp [τ₃]
  have hroom : Runs steady functions _ τ₃ (.ended .next) τ₃ := runs_askForRoom bytes ha hb
  refine ⟨τ₃, .blockNext hused (.blockNext hnext (.blockNext hlimit (.single hroom))), ?_, rfl, rfl⟩
  intro name hname
  simp only [List.mem_cons, List.not_mem_nil, or_false, not_or] at hname
  simp [τ₃, τ₂, τ₁, Std.ExtTreeMap.getElem?_insert, Ne.symm hname.1, Ne.symm hname.2.1,
    Ne.symm hname.2.2]

/-- Setting the fields of a tuple one by one, from the variables that hold their values. -/
theorem runs_setFields (done rest : List Value) {address : Nat} {names : List Name}
    (htarget : τ.locals[target]? = some (.tuple address))
    (hfields : τ.heap[address]? = some (done ++ rest)) (hlength : rest.length = names.length)
    (hvalues : names.map (τ.locals[·]?) = values.map some) :
    Runs steady functions (.block (Allocation.setFields target done.length names)) τ (.ended .next)
      { τ with heap := τ.heap.setIfInBounds address (done ++ values) } := by
  induction names generalizing τ done rest values with
  | nil =>
    cases List.map_eq_nil_iff.mp hvalues.symm
    cases List.length_eq_zero_iff.mp hlength
    have hheap : τ.heap.setIfInBounds address (done ++ []) = τ.heap := by
      grind
    rw [hheap]
    exact .blockNil
  | cons name names ih =>
    obtain ⟨old, rest, rfl⟩ := List.exists_cons_of_length_eq_add_one hlength
    obtain ⟨v, values, rfl⟩ : ∃ v vs, values = v :: vs :=
      List.exists_cons_of_ne_nil fun he => by simp [he] at hvalues
    obtain ⟨hname, hnames⟩ := List.cons.inj hvalues
    have hlt : address < τ.heap.size := (Array.getElem?_eq_some_iff.mp hfields).1
    have hread : τ.heap.fields address = done ++ old :: rest := by
      simp [Heap.fields, Array.getD_eq_getD_getElem?, hfields]
    have hset : (done ++ old :: rest).set done.length v = (done ++ [v]) ++ rest := by simp
    refine .blockNext (.setField (.local hname) htarget ?_) ?_
    · simp [hread]
    · rw [hread, hset]
      let τ₁ : Store := { τ with heap := τ.heap.setIfInBounds address ((done ++ [v]) ++ rest) }
      have hfields₁ : τ₁.heap[address]? = some ((done ++ [v]) ++ rest) := by simp [τ₁, hlt]
      have htarget₁ : τ₁.locals[target]? = some (.tuple address) := htarget
      have hrest := ih (done ++ [v]) rest htarget₁ hfields₁ (by simpa using hlength) hnames
      simpa [τ₁] using hrest

/-- The code of a tuple literal builds the tuple. -/
theorem runs_code {functions' : Std.ExtTreeMap Name Function}
    (hfunctions : ∀ name, functions'.contains name = functions.contains name) {used : Name}
    {types : List Ty} {σ σ' : Store} (hatomic : ∀ field ∈ saved, field.2.isAtomic = true)
    (hlength : types.length = saved.length)
    (hnew : ∀ name ∈ used :: next :: limit :: saved.map Prod.fst, name ∈ taken)
    (hnodup : (used :: next :: limit :: saved.map Prod.fst).Nodup)
    (hold : ∀ field ∈ saved, ∀ name ∈ field.2.ownNames, name ∉ taken) (htarget : target ∉ taken)
    (hvalues : Runs steady functions (.exprs (saved.map Prod.snd)) σ (.values values) σ')
    (hτ : σ.Agrees (· ∈ taken) τ) :
    ∃ τ', Runs steady functions' (.block (Allocation.code target saved used next limit types)) τ
        (.ended .next) τ' ∧
      Store.Agrees (· ∈ taken) { σ' with
        locals := σ'.locals.insert target (.tuple σ'.heap.size)
        heap := σ'.heap.push values } τ' := by
  simp only [List.forall_mem_cons] at hnew
  obtain ⟨hused, hnext, hlimit, hsaved⟩ := hnew
  simp only [List.nodup_cons, List.mem_cons, not_or] at hnodup
  obtain ⟨⟨hun, hul, hus⟩, ⟨hnl, hns⟩, hls, hnodup⟩ := hnodup
  obtain ⟨rfl, hvalues'⟩ := hvalues.atoms_congr (List.forall_mem_map.mpr hatomic)
    (List.forall_mem_map.mpr fun field hfield name hname =>
      hτ.locals name (hold field hfield name hname)) hfunctions
  obtain ⟨τ₁, hrun₁, hchanges₁, hheap₁, houtput₁, hsaves⟩ := runs_save hatomic
    (fun field hfield => hsaved _ (List.mem_map_of_mem hfield)) hold hnodup hvalues'
  obtain ⟨τ₂, hrun₂, hchanges₂, hheap₂, houtput₂⟩ := runs_reserveRoom steady functions' used
    (Ne.symm hnl) (Header.allocationSize types.length) τ₁
  let τ₃ : Store := { τ₂ with
    locals := τ₂.locals.insert target (.tuple τ₂.heap.size)
    heap := τ₂.heap.push (types.map fun _ => .int 0) }
  have hkeep : ∀ name ∈ saved.map Prod.fst, τ₃.locals[name]? = τ₁.locals[name]? := by
    intro name hname
    have htargetne : name ≠ target := fun he => htarget (he ▸ hsaved name hname)
    refine (Store.changesOnly_insert (p := (· = target)) rfl τ₂ _ name htargetne).trans ?_
    refine hchanges₂ name ?_
    simp only [List.mem_cons, List.not_mem_nil, or_false, not_or]
    exact ⟨fun he => hus (he ▸ hname), fun he => hns (he ▸ hname), fun he => hls (he ▸ hname)⟩
  have hrun₃ : Runs steady functions' (.block (Allocation.setFields target 0 (saved.map Prod.fst)))
      τ₃ (.ended .next) { τ₃ with heap := τ₃.heap.setIfInBounds τ₂.heap.size ([] ++ values) } := by
    refine runs_setFields [] (types.map fun _ => .int 0) (by simp [τ₃]) (by simp [τ₃])
      (by simp [hlength]) ?_
    rw [← hsaves, List.map_map]
    exact List.map_congr_left fun field hfield => hkeep _ (List.mem_map_of_mem hfield)
  have hmake : Runs steady functions' (.stmt (.assign target
      (.allocate (Header.allocationSize types.length) (.tuple types)))) τ₂ (.ended .next) τ₃ :=
    .assign (.allocate _ types)
  refine ⟨_, ((hrun₁.append hrun₂).append (.single hmake)).append hrun₃, ?_, ?_, ?_⟩
  · intro name hname
    have hbefore : τ₂.locals[name]? = σ'.locals[name]? := by
      refine (hchanges₂ name ?_).trans ((hchanges₁ name ?_).trans (hτ.locals name hname))
      · simp only [List.mem_cons, List.not_mem_nil, or_false, not_or]
        exact ⟨fun he => hname (he ▸ hused), fun he => hname (he ▸ hnext),
          fun he => hname (he ▸ hlimit)⟩
      · exact fun he => hname (hsaved name he)
    simp only [τ₃, Std.ExtTreeMap.getElem?_insert, hbefore, hheap₂, hheap₁, hτ.heap]
  · simp only [τ₃, hheap₂, hheap₁, hτ.heap]
    grind
  · exact houtput₂.trans (houtput₁.trans hτ.output)

end Interpreter

end TupleLang
