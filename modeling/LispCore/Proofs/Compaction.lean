import LispCore.Interpreter

/-!
# Leaving out empty frames

A frame that binds nothing makes no difference to a lookup, but closures made inside it capture it,
and these end up in results, frames and globals. `compact` leaves the empty frames out of every
environment in a value, an environment or a store; two of them are alike when they are the same
after that. Here is what each operation on values makes of it: printing, comparison and lookups see
no difference, calls of closures that are alike enter frames that are alike, and so on.

Host functions have to do their part: `Host.Discreet` says that a host treats values that are alike
alike, which the builtins do (`standardHost_discreet`).
-/

namespace LispCore

/-! ## Values and environments -/

mutual

/-- The value without the empty frames in the environments of its closures. -/
def Value.compact : Value → Value
  | .nil => .nil
  | .bool b => .bool b
  | .int n => .int n
  | .float x => .float x
  | .char c => .char c
  | .str s => .str s
  | .symbol s => .symbol s
  | .keyword k => .keyword k
  | .list items => .list (Value.compactAll items)
  | .vector items => .vector (Value.compactAll items)
  | .fn f => .fn f.compact
  | .native f => .native f
  | .foreign x => .foreign x

def Value.compactAll : List Value → List Value
  | [] => []
  | v :: vs => v.compact :: Value.compactAll vs

def Closure.compact : Closure → Closure
  | ⟨id, name, doc, isMacro, arities, none⟩ => ⟨id, name, doc, isMacro, arities, none⟩
  | ⟨id, name, doc, isMacro, arities, some env⟩ =>
    ⟨id, name, doc, isMacro, arities, some env.compact⟩

/-- The chain without its frames that bind nothing. -/
def Env.compact : Env → Env
  | .root id => .root id
  | .frame _ [] parent => parent.compact
  | .frame name (p :: vars) parent => .frame name (Env.compactVars (p :: vars)) parent.compact

def Env.compactVars : List (String × Value) → List (String × Value)
  | [] => []
  | (name, v) :: vars => (name, v.compact) :: Env.compactVars vars

end

/-- The bindings with their values compacted. -/
def Bindings.compact (b : Bindings Value) : Bindings Value := b.map fun p => (p.1, p.2.compact)

theorem Value.compactAll_eq (items : List Value) : compactAll items = items.map compact := by
  induction items with
  | nil => rfl
  | cons v items ih => rw [compactAll, ih, List.map_cons]

theorem Env.compactVars_eq (vars : Bindings Value) : compactVars vars = vars.compact := by
  induction vars with
  | nil => rfl
  | cons p vars ih => rw [compactVars, ih]; rfl

theorem Closure.compact_eq (f : Closure) : f.compact = { f with env := f.env.map Env.compact } := by
  obtain ⟨id, name, doc, isMacro, arities, env⟩ := f
  cases env with
  | none => rfl
  | some env => rfl

namespace Value

@[simp] theorem compact_list (items : List Value) :
    (Value.list items).compact = .list (items.map compact) := by
  rw [compact, compactAll_eq]

@[simp] theorem compact_vector (items : List Value) :
    (Value.vector items).compact = .vector (items.map compact) := by
  rw [compact, compactAll_eq]

/-! ## What values show of themselves -/

theorem isTruthy_compact (v : Value) : v.compact.isTruthy = v.isTruthy := by cases v <;> rfl

theorem isInvokable_compact (v : Value) : v.compact.isInvokable = v.isInvokable := by
  cases v <;> rfl

theorem typeName_compact (v : Value) : v.compact.typeName = v.typeName := by
  cases v with
  | fn f => rw [compact, typeName, typeName, f.compact_eq]
  | _ => rfl

theorem printAllOnto_compact_of {items : List Value}
    (h : ∀ v ∈ items, ∀ rest, v.compact.printOnto rest = v.printOnto rest) (rest : List Char) :
    printAllOnto (items.map compact) rest = printAllOnto items rest := by
  induction items with
  | nil => rfl
  | cons v items ih =>
    obtain ⟨hv, hitems⟩ := List.forall_mem_cons.1 h
    cases items with
    | nil => exact hv rest
    | cons w items =>
      have hrest := ih hitems
      rw [List.map_cons] at hrest
      rw [List.map_cons, List.map_cons, printAllOnto, printAllOnto, hrest, hv]

theorem printOnto_compact (v : Value) (rest : List Char) :
    v.compact.printOnto rest = v.printOnto rest := by
  induction v using collection_induction generalizing rest with
  | list items ih => rw [compact_list, printOnto, printOnto, printAllOnto_compact_of ih]
  | vector items ih => rw [compact_vector, printOnto, printOnto, printAllOnto_compact_of ih]
  | other v hlist hvector =>
    cases v with
    | list items => exact absurd rfl (hlist items)
    | vector items => exact absurd rfl (hvector items)
    | fn f => rw [compact, f.compact_eq]; rfl
    | _ => rfl

theorem display_compact (v : Value) : v.compact.display = v.display := by
  rw [display, display, printOnto_compact]

theorem allBeq_compact_of {xs : List Value}
    (h : ∀ v ∈ xs, ∀ w : Value, v.compact.beq w.compact = v.beq w) (ys : List Value) :
    allBeq (xs.map compact) (ys.map compact) = allBeq xs ys := by
  induction xs generalizing ys with
  | nil => cases ys <;> rfl
  | cons v xs ih =>
    obtain ⟨hv, hxs⟩ := List.forall_mem_cons.1 h
    cases ys with
    | nil => rfl
    | cons w ys => rw [List.map_cons, List.map_cons, allBeq, allBeq, hv, ih hxs]

theorem beq_compact (v w : Value) : v.compact.beq w.compact = v.beq w := by
  induction v using collection_induction generalizing w with
  | list xs ih =>
    cases w with
    | list ys => rw [compact_list, compact_list, beq, beq, allBeq_compact_of ih]
    | _ => rfl
  | vector xs ih =>
    cases w with
    | vector ys => rw [compact_vector, compact_vector, beq, beq, allBeq_compact_of ih]
    | _ => rfl
  | other v hlist hvector =>
    cases v with
    | list items => exact absurd rfl (hlist items)
    | vector items => exact absurd rfl (hvector items)
    | fn f =>
      cases w with
      | fn g => rw [compact, compact, beq, beq, f.compact_eq, g.compact_eq]
      | _ => rfl
    | _ => cases w <;> rfl

theorem compare_compact (x y : Value) : x.compact.compare y.compact = x.compare y := by
  have hother : (if x.compact == y.compact then Except.ok Ordering.eq
      else .error (Error.incomparable x.compact.typeName y.compact.typeName)) =
      if x == y then .ok .eq else .error (.incomparable x.typeName y.typeName) := by
    have heq : (x.compact == y.compact) = (x == y) := beq_compact x y
    rw [heq, typeName_compact, typeName_compact]
  cases x with
  | int n => cases y with
    | int k => rfl
    | _ => exact hother
  | float a => cases y with
    | float b => rfl
    | _ => exact hother
  | str s => cases y with
    | str t => rfl
    | _ => exact hother
  | char c => cases y with
    | char d => rfl
    | _ => exact hother
  | bool a => cases y with
    | bool b => rfl
    | _ => exact hother
  | _ => exact hother

end Value

/-! ## Environments and calls -/

/-- Results that are alike after `c` are values that are, or the same error. -/
theorem alike_cases {α β : Type} {c : α → β} {r r' : Except Error α} (h : r.map c = r'.map c) :
    (∃ a b, r = .ok a ∧ r' = .ok b ∧ c a = c b) ∨ ∃ e, r = .error e ∧ r' = .error e := by
  cases r with
  | ok a =>
    cases r' with
    | ok b => exact .inl ⟨a, b, rfl, rfl, Except.ok.inj h⟩
    | error e => cases h
  | error e =>
    cases r' with
    | ok b => cases h
    | error e' =>
      cases h
      exact .inr ⟨e, rfl, rfl⟩

theorem Bindings.insert_compact (name : String) (v : Value) (b : Bindings Value) :
    (b.insert name v).compact = b.compact.insert name v.compact :=
  insert_map Value.compact name v b

theorem Bindings.find?_compact (b : Bindings Value) (name : String) :
    b.compact.find? name = (b.find? name).map Value.compact := find?_map Value.compact b name

namespace Env

theorem rootId_compact (env : Env) : env.compact.rootId = env.rootId := by
  induction env using chain_induction with
  | root id => rfl
  | frame name vars parent ih => cases vars <;> exact ih

theorem compact_child (env : Env) (name : String) (vars : Bindings Value) :
    (env.child name vars).compact =
      if vars.compact.isEmpty then env.compact else .frame name vars.compact env.compact := by
  cases vars with
  | nil => rfl
  | cons p vars =>
    rw [child, compact, compactVars_eq]
    rfl

/-- An empty frame binds nothing, so leaving it out changes no lookup. -/
theorem find?_compact (env : Env) (name : String) :
    env.compact.find? name = (env.find? name).map Value.compact := by
  induction env using chain_induction with
  | root id => rfl
  | frame frameName vars parent ih =>
    cases vars with
    | nil => exact ih
    | cons p vars =>
      rw [compact, compactVars_eq, find?, find?, Bindings.find?_compact, ih]
      cases Bindings.find? name (p :: vars) <;> rfl

end Env

namespace Closure

variable {f g : Closure}

theorem restValue_compact (args : List Value) :
    restValue (args.map Value.compact) = (restValue args).compact := by
  cases args with
  | nil => rfl
  | cons v args => exact (Value.compact_list (v :: args)).symm

theorem arguments_compact (f : Closure) (a : Arity (Option Expr)) (args : List Value) :
    f.compact.arguments a (args.map Value.compact) = Bindings.compact (f.arguments a args) := by
  have hname : f.compact.name = f.name := by rw [f.compact_eq]
  unfold arguments Bindings.compact
  dsimp only
  rw [hname, ← List.map_drop, restValue_compact, List.map_append, List.map_append, List.map_map,
    List.zip_map_right, List.map_map, List.map_map]
  congr 1
  split
  · rw [List.map_map]
    rfl
  · rfl

/-- Whether a frame can be made depends on the names alone. -/
theorem bindAll_compact (pairs : List (String × Value)) :
    bindAll (Bindings.compact pairs) = (bindAll pairs).map Bindings.compact := by
  let bindOne (vars : Bindings Value) (p : String × Value) : Except Error (Bindings Value) := do
    return Bindings.insert (← bindingName p.1) p.2 vars
  suffices go : ∀ vars : Bindings Value, (Bindings.compact pairs).foldlM bindOne vars.compact =
      (pairs.foldlM bindOne vars).map Bindings.compact from go []
  induction pairs with
  | nil => exact fun vars => rfl
  | cons p pairs ih =>
    intro vars
    have hcompact : Bindings.compact (p :: pairs) =
        (p.1, p.2.compact) :: Bindings.compact pairs := rfl
    rw [hcompact, List.foldlM_cons, List.foldlM_cons]
    simp only [bindOne]
    cases bindingName p.1 with
    | error e => rfl
    | ok name =>
      have hnext := ih (vars.insert name p.2)
      rw [Bindings.insert_compact] at hnext
      exact hnext

/-- The frame of a call, without empty frames around it, and the body. -/
def compactEntry (entered : Env × Expr) : Env × Expr := (entered.1.compact, entered.2)

/-- Calls of closures that are alike enter the same body, in frames that are alike. -/
theorem enter_alike {args args' : List Value} (hf : f.compact = g.compact)
    (hargs : args.map Value.compact = args'.map Value.compact) :
    (f.enter args).map compactEntry = (g.enter args').map compactEntry := by
  have hlength : args.length = args'.length := by
    have := congrArg List.length hargs
    rwa [List.length_map, List.length_map] at this
  have hparts := hf
  rw [f.compact_eq, g.compact_eq] at hparts
  obtain ⟨-, hname, -, -, harities, henv⟩ := Closure.mk.inj hparts
  have hfind : f.findArity? args.length = g.findArity? args'.length := by
    rw [findArity?, findArity?, harities, hlength]
  unfold enter
  rw [hfind]
  cases g.findArity? args'.length with
  | none =>
    dsimp only
    rw [hname, aritySummary, aritySummary, harities, hlength]
  | some a =>
    have hbound : (bindAll (f.arguments a args)).map Bindings.compact =
        (bindAll (g.arguments a args')).map Bindings.compact := by
      rw [← bindAll_compact, ← bindAll_compact, ← arguments_compact, ← arguments_compact, hf, hargs]
    dsimp only
    cases hown : f.env with
    | none =>
      have hother : g.env = none := by
        rw [hown] at henv
        exact Option.map_eq_none_iff.1 henv.symm
      rw [hother]
    | some env =>
      obtain ⟨env', hother, hcompact⟩ : ∃ env', g.env = some env' ∧ env'.compact = env.compact := by
        rw [hown] at henv
        exact Option.map_eq_some_iff.1 henv.symm
      rw [hother]
      cases a.body with
      | none => rfl
      | some body =>
        have hframe : f.frameName = g.frameName := by rw [frameName, frameName, hname]
        rw [hframe]
        obtain ⟨vars, vars', hleft, hright, hvars⟩ | ⟨e, hleft, hright⟩ := alike_cases hbound
        · have hchild : (env.child g.frameName vars).compact =
              (env'.child g.frameName vars').compact := by
            rw [Env.compact_child, Env.compact_child, hvars, hcompact]
          rw [hleft, hright]
          exact congrArg (fun env => Except.ok (env, body)) hchild
        · rw [hleft, hright]
          rfl

end Closure

/-! ## Globals and stores -/

namespace Globals

/-- The globals with every value compacted. -/
def compact (g : Globals) : Globals :=
  { g with tables := g.tables.map fun p => (p.1, Bindings.compact p.2) }

variable (g : Globals)

theorem find?_compact (ns : String) :
    g.compact.tables.find? ns = (g.tables.find? ns).map Bindings.compact :=
  Bindings.find?_map Bindings.compact g.tables ns

theorem lookup_compact (s : Symbol) : g.compact.lookup s = (g.lookup s).map Value.compact := by
  unfold lookup
  cases s.space with
  | some ns =>
    dsimp only
    rw [resolveQualified, resolveQualified, find?_compact]
    cases g.tables.find? ns with
    | none => rfl
    | some table =>
      dsimp only [Option.map_some]
      rw [Bindings.find?_compact]
      cases table.find? s.base <;> rfl
  | none =>
    have hactive : g.compact.findActive? s.base = (g.findActive? s.base).map Value.compact := by
      rw [findActive?, findActive?, find?_compact]
      change ((g.tables.find? g.active).map Bindings.compact).bind _ = _
      cases g.tables.find? g.active with
      | none => rfl
      | some table => exact Bindings.find?_compact table s.base
    dsimp only
    rw [hactive]
    cases g.findActive? s.base <;> rfl

theorem put_compact (ns name : String) (v : Value) :
    (g.put ns name v).compact = g.compact.put ns name v.compact := by
  have htable : g.compact.table ns = (g.table ns).compact := by
    rw [table, table, find?_compact]
    cases g.tables.find? ns <;> rfl
  have hinsert := Bindings.insert_map Bindings.compact ns ((g.table ns).insert name v) g.tables
  rw [Bindings.insert_compact] at hinsert
  rw [put, put, htable]
  exact congrArg (Globals.mk g.active) hinsert

theorem define_compact (s : Symbol) (v : Value) :
    g.compact.define s v.compact = (g.define s v).map compact := by
  obtain ⟨space, name⟩ := s
  have hknown (ns : String) : g.compact.tables.contains ns = g.tables.contains ns := by
    rw [Bindings.contains, Bindings.contains, find?_compact, Option.isSome_map]
  have hspace : space.all g.compact.tables.contains = space.all g.tables.contains := by
    cases space with
    | none => rfl
    | some ns => exact hknown ns
  rw [define_eq, define_eq, hspace]
  split
  · rfl
  · split
    · exact congrArg Except.ok (put_compact g _ _ v).symm
    · rfl

end Globals

def Task.compact (t : Task) : Task := { t with env := t.env.compact }

namespace Store

/-- The store without empty frames, in its globals and in the tasks that wait. -/
def compact (s : Store) : Store :=
  { s with roots := s.roots.map Globals.compact, tasks := s.tasks.map Task.compact }

variable (s : Store)

theorem globals_compact (root : Nat) : s.compact.globals root = (s.globals root).compact := by
  rw [globals, globals, compact, List.getD_eq_getElem?_getD, List.getD_eq_getElem?_getD,
    List.getElem?_map]
  cases s.roots[root]? <;> rfl

theorem setGlobals_compact (root : Nat) (g : Globals) :
    (s.setGlobals root g).compact = s.compact.setGlobals root g.compact := by
  rw [setGlobals, setGlobals, compact, compact, List.map_set]

end Store

/-! ## The host -/

/-- Two host functions do alike: they answer alike, or call values that are alike with arguments that
are alike and go on alike, whatever values that are alike they get back. -/
def Reply.Alike {args args' : List Value} : Reply args → Reply args' → Prop
  | .done r, .done r' => r.map Value.compact = r'.map Value.compact
  | .call f xs _ next, .call g ys _ next' =>
    (f.compact = g.compact ∧ xs.map Value.compact = ys.map Value.compact) ∧
      ∀ v w, v.compact = w.compact → (next v).Alike (next' w)
  | _, _ => False

/-- A host that treats arguments that are alike alike. -/
def Host.Discreet (host : Host) : Prop :=
  ∀ name c args args', args.map Value.compact = args'.map Value.compact →
    (host name c args).Alike (host name c args')

/-! ## The builtins -/

namespace Value

theorem plainText_compact (v : Value) : v.compact.plainText = v.plainText := by
  cases v with
  | list items => exact display_compact (.list items)
  | vector items => exact display_compact (.vector items)
  | fn f => exact display_compact (.fn f)
  | _ => rfl

theorem index?_compact (v : Value) : v.compact.index? = v.index? := by
  cases v <;> rfl

end Value

namespace Collection

def compact : Collection → Collection
  | list items => .list (items.map Value.compact)
  | vector items => .vector (items.map Value.compact)

variable (c : Collection)

theorem toValue_compact : c.compact.toValue = c.toValue.compact := by
  cases c with
  | list items => exact (Value.compact_list items).symm
  | vector items => exact (Value.compact_vector items).symm

theorem items_compact : c.compact.items = c.items.map Value.compact := by
  cases c <;> rfl

theorem rest_compact : c.compact.rest = c.rest.compact := by
  cases c with
  | list items => exact congrArg list List.map_tail.symm
  | vector items => exact congrArg vector List.map_tail.symm

theorem conj_compact (new : List Value) :
    c.compact.conj (new.map Value.compact) = (c.conj new).compact := by
  cases c with
  | list items =>
    refine congrArg list ?_
    induction new generalizing items with
    | nil => rfl
    | cons v new ih => exact ih (v :: items)
  | vector items => exact congrArg vector List.map_append.symm

theorem assoc?_compact (i : Nat) (v : Value) :
    c.compact.assoc? i v.compact = (c.assoc? i v).map compact := by
  cases c with
  | list items => rfl
  | vector items =>
    unfold compact assoc?
    dsimp only
    rw [List.length_map]
    split
    · exact congrArg (fun items => some (vector items)) List.map_set.symm
    · split
      · have happend : items.map Value.compact ++ [v.compact] = (items ++ [v]).map Value.compact := by
          rw [List.map_append, List.map_singleton]
        exact congrArg (fun items => some (vector items)) happend
      · rfl

end Collection

namespace Builtin

theorem headD_compact (items : List Value) :
    (items.map Value.compact).headD .nil = (items.headD .nil).compact := by
  cases items <;> rfl

theorem intArgs_compact (b : Builtin) (args : List Value) :
    b.intArgs (args.map Value.compact) = b.intArgs args := by
  induction args with
  | nil => rfl
  | cons v args ih =>
    cases v with
    | int n => rw [List.map_cons, Value.compact, intArgs, intArgs, ih]
    | fn f =>
      have htype := (Value.fn f).typeName_compact
      rw [Value.compact] at htype
      rw [List.map_cons, Value.compact, intArgs, intArgs, htype]
      · exact nofun
      · exact nofun
    | _ => rfl

variable {b : Builtin} {c : Context}

/-! Numbers. -/

theorem numbers_compact {f : List Int64 → Except Error Value}
    (h : ∀ args, b.run c args = b.intArgs args >>= f)
    (hf : ∀ ns, (f ns).map Value.compact = f ns) (args : List Value) :
    b.run c (args.map Value.compact) = (b.run c args).map Value.compact := by
  rw [h, h, intArgs_compact]
  cases b.intArgs args with
  | error e => rfl
  | ok ns => exact (hf ns).symm

/-! Comparison. -/

/-- A builtin of two arguments that complains about any other number of them as it does about
none. -/
theorem binary_compact (hnone : (b.run c []).map Value.compact = b.run c [])
    (hother : ∀ args, (∀ x y, args ≠ [x, y]) → b.run c args = b.run c [])
    (hpair : ∀ x y, b.run c [x.compact, y.compact] = (b.run c [x, y]).map Value.compact)
    (args : List Value) :
    b.run c (args.map Value.compact) = (b.run c args).map Value.compact := by
  by_cases h : ∃ x y, args = [x, y]
  · obtain ⟨x, y, rfl⟩ := h
    exact hpair x y
  · have hargs (x y : Value) : args ≠ [x, y] := fun heq => h ⟨x, y, heq⟩
    have hcompact (x y : Value) : args.map Value.compact ≠ [x, y] := by
      intro heq
      obtain ⟨x', rest, rfl, -, hrest⟩ := List.map_eq_cons_iff.1 heq
      obtain ⟨y', rfl, -⟩ := List.map_eq_singleton_iff.1 hrest
      exact hargs x' y' rfl
    rw [hother _ hargs, hother _ hcompact, hnone]

/-- Two values are compared without a look at empty frames. -/
theorem ordering_compact {f : Ordering → Value}
    (h : ∀ x y, b.run c [x, y] = x.compare y >>= fun o => .ok (f o))
    (hf : ∀ o, (f o).compact = f o) (x y : Value) :
    b.run c [x.compact, y.compact] = (b.run c [x, y]).map Value.compact := by
  rw [h, h, Value.compare_compact]
  cases x.compare y with
  | error e => rfl
  | ok o => exact congrArg Except.ok (hf o).symm

/-! Sequences. -/

/-- A builtin of one argument that complains about any other number of them as it does about none. -/
theorem unary_compact (hnone : (b.run c []).map Value.compact = b.run c [])
    (hmany : ∀ v w rest, b.run c (v :: w :: rest) = b.run c [])
    (hone : ∀ v, b.run c [v.compact] = (b.run c [v]).map Value.compact) (args : List Value) :
    b.run c (args.map Value.compact) = (b.run c args).map Value.compact := by
  rcases args with _ | ⟨v, _ | ⟨w, rest⟩⟩
  · exact hnone.symm
  · exact hone v
  · rw [List.map_cons, List.map_cons, hmany, hmany, hnone]

theorem first_compact (v : Value) :
    first.run c [v.compact] = (first.run c [v]).map Value.compact := by
  cases v with
  | list items =>
    rw [Value.compact_list]
    exact congrArg Except.ok (headD_compact items)
  | vector items =>
    rw [Value.compact_vector]
    exact congrArg Except.ok (headD_compact items)
  | _ => rfl

theorem rest_compact (v : Value) :
    rest.run c [v.compact] = (rest.run c [v]).map Value.compact := by
  have hrest (c : Collection) : c.compact.rest.toValue = c.rest.toValue.compact := by
    rw [Collection.rest_compact, Collection.toValue_compact]
  cases v with
  | list items =>
    rw [Value.compact_list]
    exact congrArg Except.ok (hrest (.list items))
  | vector items =>
    rw [Value.compact_vector]
    exact congrArg Except.ok (hrest (.vector items))
  | _ => rfl

theorem count_compact (v : Value) :
    count.run c [v.compact] = (count.run c [v]).map Value.compact := by
  have hlength (items : List Value) : Except.ok (ε := Error)
      (Value.ofInt ((items.map Value.compact).length : Nat)) =
      .ok (Value.ofInt (items.length : Nat)) := by
    rw [List.length_map]
  cases v with
  | list items =>
    rw [Value.compact_list]
    exact hlength items
  | vector items =>
    rw [Value.compact_vector]
    exact hlength items
  | _ => rfl

theorem cons_compact (x v : Value) :
    cons.run c [x.compact, v.compact] = (cons.run c [x, v]).map Value.compact := by
  cases v with
  | list items =>
    rw [Value.compact_list]
    exact congrArg Except.ok (Value.compact_list (x :: items)).symm
  | _ => rfl

theorem conj_compact (args : List Value) :
    conj.run c (args.map Value.compact) = (conj.run c args).map Value.compact := by
  have hconj (c : Collection) (new : List Value) :
      (c.compact.conj (new.map Value.compact)).toValue = (c.conj new).toValue.compact := by
    rw [Collection.conj_compact, Collection.toValue_compact]
  rcases args with _ | ⟨v, new⟩
  · rfl
  · cases v with
    | list items =>
      rw [List.map_cons, Value.compact_list]
      exact congrArg Except.ok (hconj (.list items) new)
    | vector items =>
      rw [List.map_cons, Value.compact_vector]
      exact congrArg Except.ok (hconj (.vector items) new)
    | _ => rfl

theorem nth_compact (v i : Value) :
    nth.run c [v.compact, i.compact] = (nth.run c [v, i]).map Value.compact := by
  cases v with
  | vector items =>
    rw [Value.compact_vector]
    unfold run
    dsimp only
    rw [Value.index?_compact]
    cases i.index? with
    | none => rfl
    | some k =>
      rw [Option.bind_some, Option.bind_some, List.getElem?_map]
      cases items[k]? <;> rfl
  | _ => rfl

theorem assoc_compact (args : List Value) :
    assoc.run c (args.map Value.compact) = (assoc.run c args).map Value.compact := by
  rcases args with _ | ⟨v, _ | ⟨i, _ | ⟨w, _ | ⟨x, rest⟩⟩⟩⟩
  · rfl
  · cases v <;> rfl
  · cases v <;> rfl
  · cases v with
    | vector items =>
      have hassoc (k : Nat) := (Collection.vector items).assoc?_compact k w
      rw [Collection.compact] at hassoc
      rw [List.map_cons, List.map_cons, List.map_cons, List.map_nil, Value.compact_vector]
      unfold run
      dsimp only
      rw [Value.index?_compact]
      cases i.index? with
      | none => rfl
      | some k =>
        rw [Option.bind_some, Option.bind_some, hassoc]
        cases (Collection.vector items).assoc? k w with
        | none => rfl
        | some c => exact congrArg Except.ok c.toValue_compact
    | _ => rfl
  · cases v <;> rfl

theorem str_compact (args : List Value) :
    str.run c (args.map Value.compact) = (str.run c args).map Value.compact := by
  have htexts : (args.map Value.compact).map Value.plainText = args.map Value.plainText := by
    rw [List.map_map]
    exact List.map_congr_left fun v _ => v.plainText_compact
  unfold run
  dsimp only
  rw [htexts]
  rfl

variable (b c)

/-- Builtins see of a value what it is without empty frames. -/
theorem run_compact (args : List Value) :
    b.run c (args.map Value.compact) = (b.run c args).map Value.compact := by
  cases b with
  | add => exact numbers_compact (fun _ => rfl) (fun _ => rfl) args
  | sub =>
    refine numbers_compact (fun _ => rfl) (fun ns => ?_) args
    rcases ns with _ | ⟨n, _ | ⟨k, ns⟩⟩ <;> rfl
  | less =>
    refine binary_compact rfl (fun args hargs => ?_)
      (ordering_compact (f := fun o => .bool (o == .lt)) (fun _ _ => rfl) fun _ => rfl) args
    rcases args with _ | ⟨x, _ | ⟨y, _ | ⟨z, rest⟩⟩⟩ <;> first | rfl | exact absurd rfl (hargs x y)
  | equal =>
    refine binary_compact rfl (fun args hargs => ?_) (fun x y => ?_) args
    · rcases args with _ | ⟨x, _ | ⟨y, _ | ⟨z, rest⟩⟩⟩ <;> first | rfl | exact absurd rfl (hargs x y)
    · exact congrArg (fun same => Except.ok (Value.bool same)) (Value.beq_compact x y)
  | compare =>
    refine binary_compact rfl (fun args hargs => ?_)
      (ordering_compact (f := Value.ofOrdering) (fun _ _ => rfl) fun o => by cases o <;> rfl) args
    rcases args with _ | ⟨x, _ | ⟨y, _ | ⟨z, rest⟩⟩⟩ <;> first | rfl | exact absurd rfl (hargs x y)
  | first => exact unary_compact rfl (fun v _ _ => by cases v <;> rfl) first_compact args
  | rest => exact unary_compact rfl (fun v _ _ => by cases v <;> rfl) rest_compact args
  | count => exact unary_compact rfl (fun v _ _ => by cases v <;> rfl) count_compact args
  | cons =>
    refine binary_compact rfl (fun args hargs => ?_) cons_compact args
    rcases args with _ | ⟨x, _ | ⟨v, _ | ⟨w, rest⟩⟩⟩
    · rfl
    · rfl
    · exact absurd rfl (hargs x v)
    · cases v <;> rfl
  | conj => exact conj_compact args
  | nth =>
    refine binary_compact rfl (fun args hargs => ?_) nth_compact args
    rcases args with _ | ⟨v, _ | ⟨i, _ | ⟨w, rest⟩⟩⟩
    · rfl
    · cases v <;> rfl
    · exact absurd rfl (hargs v i)
    · cases v <;> rfl
  | assoc => exact assoc_compact args
  | list => exact congrArg Except.ok (Value.compact_list args).symm
  | vector => exact congrArg Except.ok (Value.compact_vector args).symm
  | echo => exact congrArg Except.ok (Value.compact_vector args).symm
  | str => exact str_compact args
  | typeName =>
    refine unary_compact rfl (fun _ _ _ => rfl) (fun v => ?_) args
    exact congrArg (fun name => Except.ok (Value.str name)) v.typeName_compact
  | throw =>
    exact unary_compact rfl (fun v _ _ => by cases v <;> rfl) (fun v => by cases v <;> rfl) args
  | depth => rfl
  | limit => rfl
  | apply => rfl

end Builtin

theorem Value.eq_list_of_compact {v : Value} {items : List Value} (h : v.compact = .list items) :
    ∃ items', v = .list items' ∧ items'.map compact = items := by
  cases v with
  | list items' =>
    rw [compact_list] at h
    exact ⟨items', rfl, Value.list.inj h⟩
  | _ => cases h

theorem Value.eq_nil_of_compact {v : Value} (h : v.compact = .nil) : v = .nil := by
  cases v <;> first | rfl | cases h

/-- Two arguments that are alike to two others. -/
theorem Value.eq_pair_of_compact {args : List Value} {v w : Value}
    (h : args.map compact = [v, w]) :
    ∃ v' w', args = [v', w'] ∧ v'.compact = v ∧ w'.compact = w := by
  obtain ⟨v', rest, rfl, hv, hrest⟩ := List.map_eq_cons_iff.1 h
  obtain ⟨w', rfl, hw⟩ := List.map_eq_singleton_iff.1 hrest
  exact ⟨v', w', rfl, hv, hw⟩

theorem Builtin.reply_alike (b : Builtin) (c : Context) {args args' : List Value}
    (hargs : args.map Value.compact = args'.map Value.compact) :
    (b.reply c args).Alike (b.reply c args') := by
  have hrun : (b.run c args).map Value.compact = (b.run c args').map Value.compact := by
    rw [← b.run_compact, ← b.run_compact, hargs]
  have hanswer (v w : Value) (h : v.compact = w.compact) :
      (.done (.ok v) : Reply args).Alike (.done (.ok w) : Reply args') :=
    congrArg Except.ok h
  unfold reply
  split
  · next f xs =>
    obtain ⟨f', v', rfl, hf, hv⟩ := Value.eq_pair_of_compact hargs.symm
    rw [Value.compact_list] at hv
    obtain ⟨xs', rfl, hxs⟩ := Value.eq_list_of_compact hv
    exact ⟨⟨hf.symm, hxs.symm⟩, hanswer⟩
  · next f =>
    obtain ⟨f', v', rfl, hf, hv⟩ := Value.eq_pair_of_compact hargs.symm
    cases Value.eq_nil_of_compact hv
    exact ⟨⟨hf.symm, rfl⟩, hanswer⟩
  · next hlist hnil =>
    split
    · next f' xs' =>
      obtain ⟨f, v, rfl, -, hv⟩ := Value.eq_pair_of_compact hargs
      rw [Value.compact_list] at hv
      obtain ⟨xs, rfl, -⟩ := Value.eq_list_of_compact hv
      exact (hlist f xs rfl rfl).elim
    · next f' =>
      obtain ⟨f, v, rfl, -, hv⟩ := Value.eq_pair_of_compact hargs
      exact (hnil f rfl (by rw [Value.eq_nil_of_compact hv])).elim
    · exact hrun

theorem standardHost_discreet : standardHost.Discreet := by
  intro name c args args' hargs
  unfold standardHost
  cases Builtin.ofName? name with
  | none => rfl
  | some b => exact b.reply_alike c hargs

/-- Vector literals see of values what they are without empty frames. -/
theorem Level.refresh_compact (items : List Value) (index : Nat) (v : Value) :
    refresh (items.map Value.compact) index v.compact =
      (refresh items index v).map (List.map Value.compact) := by
  have hsame : ((items.map Value.compact)[index]?).any (· == v.compact) =
      (items[index]?).any (· == v) := by
    rw [List.getElem?_map]
    cases items[index]? with
    | none => rfl
    | some w => exact Value.beq_compact w v
  have hassoc := (Collection.vector items).assoc?_compact index v
  rw [Collection.compact] at hassoc
  unfold refresh
  rw [hsame, hassoc]
  split
  · rfl
  · cases (Collection.vector items).assoc? index v with
    | none => rfl
    | some c => exact congrArg Except.ok c.items_compact

end LispCore
