import Lox.Proofs.Machine.Agreement

/-!
# Bodies, calls and classes

Each new scope is entered with the names bound that are definite in it: the functions of a block,
the parameters and functions of a function, the receiver of a method, the superclass of a class.
So a machine that agrees with the resolver still does once it has started on a body, a call or the
declaration of a class.
-/

set_option autoImplicit false

namespace Lox

open Scoping ResolveM

/-! ## Parameters -/

namespace Bindings

variable {α : Type}

theorem mem_of_find?_put {b : Bindings α} {name x : String} {value v : α}
    (h : (b.put name value).find? x = some v) : (x = name ∧ v = value) ∨ b.find? x = some v := by
  by_cases hx : x = name
  · subst hx
    rw [find?_put_self] at h
    exact Or.inl ⟨rfl, (Option.some.inj h).symm⟩
  · rw [find?_put_of_ne b value hx] at h
    exact Or.inr h

theorem single_eq_put (name : String) (value : α) : single name value = empty.put name value := rfl

theorem mem_of_find?_single {name x : String} {value v : α}
    (h : (single name value).find? x = some v) : x = name ∧ v = value := by
  rw [single_eq_put] at h
  rcases mem_of_find?_put h with heq | hfind
  · exact heq
  · cases hfind

theorem mem_of_find?_putAll {b : Bindings α} {names : List String} {values : List α} {x : String}
    {v : α} (h : (b.putAll names values).find? x = some v) :
    (x ∈ names ∧ v ∈ values) ∨ b.find? x = some v := by
  fun_induction putAll b names values with
  | case1 b name names value values ih =>
    rcases ih h with ⟨hx, hv⟩ | hfind
    · exact Or.inl ⟨List.mem_cons_of_mem _ hx, List.mem_cons_of_mem _ hv⟩
    · rcases mem_of_find?_put hfind with ⟨rfl, rfl⟩ | hfind
      · exact Or.inl ⟨List.mem_cons_self, List.mem_cons_self⟩
      · exact Or.inr hfind
  | case2 => exact Or.inr h

theorem isSome_find?_put {b : Bindings α} {name x : String} {value : α}
    (h : (b.find? x).isSome = true ∨ x = name) : ((b.put name value).find? x).isSome = true := by
  by_cases hx : x = name
  · subst hx
    rw [find?_put_self]
    rfl
  · rw [find?_put_of_ne b value hx]
    exact h.resolve_right hx

theorem isSome_find?_putAll {b : Bindings α} {names : List String} {values : List α} {x : String}
    (hlength : names.length ≤ values.length) (h : (b.find? x).isSome = true ∨ x ∈ names) :
    ((b.putAll names values).find? x).isSome = true := by
  fun_induction putAll b names values with
  | case1 b name names value values ih =>
    refine ih (Nat.le_of_succ_le_succ hlength) ?_
    rcases h with h | h
    · exact Or.inl (isSome_find?_put (Or.inl h))
    · rcases List.mem_cons.1 h with rfl | h
      · exact Or.inl (isSome_find?_put (Or.inr rfl))
      · exact Or.inr h
  | case2 names b values hcons =>
    rcases h with h | h
    · exact h
    · cases names with
      | nil => cases h
      | cons name names =>
        cases values with
        | nil => cases hlength
        | cons value values => exact (hcons name names value values rfl rfl).elim

end Bindings

theorem Store.assign_eq_define {σ : Store} {env : Env} {id : ScopeId} {x : String}
    (hid : env[0]? = some id) (hx : σ.Binds id x) (v : Value) (line : Nat) :
    σ.assign env x v line = (.ok (), σ.define env x v) := by
  cases env with
  | nil => cases hid
  | cons id' outer =>
    obtain rfl := Option.some.inj hid
    obtain ⟨u, hu⟩ := Option.isSome_iff_exists.1 hx
    simp [Store.assign, Store.define, hu]

namespace Machine

variable {C : Corpus} {shapes : Shapes} {os : List ScopeOrigin} {r : Scoping}
  {frames : List Frame} {w : World}

/-! ## Bodies -/

/-- A body starts in a new scope that binds the names definite in it. -/
theorem advances_enterScope {cause : Cause} {o : ScopeOrigin} {os' : List ScopeOrigin}
    {r' : Scoping} {body : List Stmt} {bindings : Bindings Value} {b c : Bool}
    (hat : w.At C shapes os r) (hknown : KnownIn C ⟨o :: os', r', .body body⟩)
    (hcause : cause.Opens C o os') (houter : Fits shapes cause.outer os')
    (hbindings : ∀ x v, bindings.find? x = some v → ValueFits C shapes v ∧ x ∈ o.names ∧ o.Admits v)
    (hfunctions : functionNames body ⊆ o.names)
    (hdefinite : ∀ x ∈ o.definite, (bindings.find? x).isSome = true ∨ x ∈ functionNames body)
    (hplace : ∀ shapes' σ', Extends shapes w.store shapes' σ' → σ'.Definite shapes' →
      shapes'.origin? w.store.scopes.size = some o →
      Here shapes' σ' ⟨o :: os', r', w.store.scopes.size :: cause.outer⟩)
    (hallows : Allows r' b c)
    (hwaits : Waits C shapes w.store ⟨os, r, w.env⟩ (.completion b c) frames) :
    AdvancesBy C shapes w.store [cause]
      (enterScope bindings cause.outer ((resolveBody body).outcome r') frames w) := by
  let w₁ : World := { (w.newScope bindings).2 with env := w.store.scopes.size :: cause.outer }
  have horigin := hat.typed.origin?_size o
  have hshapes : shapes <+: shapes ++ [o] := List.prefix_append _ _
  have htyped₁ : w₁.store.Typed C (shapes ++ [o]) :=
    hat.typed.newScope (fun x v hv => (hbindings x v hv).1) (fun x v hv => (hbindings x v hv).2)
  have hgrows₁ : w.store.Grows w₁.store := Store.grows_newScope _ _
  obtain ⟨htyped₂, hgrows₂, hbinds₂⟩ := World.defineFunctions_fits (w := w₁) htyped₁
    (.scope horigin (houter.mono hshapes)) hknown hfunctions
  have hnew : ∀ x ∈ o.definite,
      (w₁.defineFunctions ((resolveBody body).outcome r')).store.Binds w.store.scopes.size x := by
    intro x hx
    rcases hdefinite x hx with hbound | hfunction
    · apply hgrows₂
      show ((w.store.newScope bindings).2.find? w.store.scopes.size x).isSome = true
      rw [Store.find?_newScope, if_pos rfl]
      exact hbound
    · obtain ⟨id, hid, hbinds⟩ := hbinds₂ x hfunction
      obtain rfl := Option.some.inj hid
      exact hbinds
  have hdefinite₂ := hat.definite.append hat.typed (hgrows₁.trans hgrows₂) hnew
  have hextends : Extends shapes w.store (shapes ++ [o]) _ := ⟨hshapes, hgrows₁.trans hgrows₂⟩
  have hhere := hplace _ _ hextends hdefinite₂ horigin
  refine ⟨[o], hextends, ?_, .cons ⟨os', hcause, houter.mono hshapes⟩ .nil⟩
  refine .completed (r := r') ⟨⟨htyped₂, hdefinite₂⟩, ?_⟩ trivial (.sequence hknown hallows ?_)
  · rw [World.env_defineFunctions]
    exact hhere
  · intro r''
    exact .restore (q := ⟨os, r, w.env⟩) (hextends.here hat.here) (hwaits.mono hextends)

/-- The body of a function starts in the scopes of its closure. -/
theorem advances_enterFunction {closure : Closure} {arguments : List Value}
    (hat : w.At C shapes os r) (hclosure : FunctionFits C shapes closure)
    (harguments : ∀ v ∈ arguments, ValueFits C shapes v)
    (hlength : arguments.length = closure.arity)
    (hwaits : Waits C shapes w.store ⟨os, r, w.env⟩ .value frames) :
    AdvancesBy C shapes w.store [.call closure] (enterFunction closure arguments frames w) := by
  have hfinish := Waits.finish hclosure hwaits
  obtain ⟨os', r', ⟨name, params, body, line⟩, hknown, hdecl, hfits, -⟩ := hclosure
  obtain ⟨hparams, hbody⟩ : (∀ param ∈ params, Plain param.name) ∧ Regular (.body body) := by
    cases hknown.proper.regular with
    | code _ _ hparams hbody => exact ⟨hparams, hbody⟩
  obtain ⟨hstate, -, houtcome⟩ := function_quiet hbody hknown.proper.quiet
  have hbodyKnown :
      KnownIn C ⟨.function params body :: os', functionState params body r', .body body⟩ := by
    rw [← hstate]
    exact hknown.child List.mem_cons_self
  have hcause : (Cause.call closure).Opens C (.function params body) os' := .call hknown hdecl
  rw [houtcome] at hdecl
  rw [Closure.arity, hdecl] at hlength
  rw [enterFunction, hdecl]
  apply advances_enterScope hat hbodyKnown hcause hfits
  · intro x v hv
    rcases Bindings.mem_of_find?_putAll hv with ⟨hx, hv⟩ | hempty
    · exact ⟨harguments v hv, List.mem_append_left _ (List.mem_append_left _ hx), trivial⟩
    · cases hempty
  · intro x hx
    exact List.mem_append_left _ (List.mem_append_right _ hx)
  · intro x hx
    rcases List.mem_append.1 hx with hx | hx
    · refine Or.inl (Bindings.isSome_find?_putAll ?_ (Or.inr hx))
      simp [hlength]
    · exact Or.inr hx
  · intro shapes' σ' hextends hdefinite horigin
    exact Here.function (hfits.mono hextends.shapes) horigin hdefinite
  · exact ⟨fun h => absurd rfl h, fun _ => rfl⟩
  · exact hfinish

/-! ## Methods -/

theorem single_fits {o : ScopeOrigin} {x : String} {v : Value} (h : w.Ready C shapes)
    (hdefinite : o.definite = [x]) (hv : ValueFits C shapes v) (hadmits : o.Admits v) :
    (w.newScope (.single x v)).2.Ready C (shapes ++ [o]) ∧
      Extends shapes w.store (shapes ++ [o]) (w.newScope (.single x v)).2.store := by
  have hnew : ∀ y ∈ o.definite, (w.newScope (.single x v)).2.store.Binds w.store.scopes.size y := by
    intro y hy
    rw [hdefinite] at hy
    obtain rfl := List.mem_singleton.1 hy
    show ((w.store.newScope _).2.find? w.store.scopes.size y).isSome = true
    rw [Store.find?_newScope, if_pos rfl, Bindings.single_eq_put, Bindings.find?_put_self]
    rfl
  have hgrows := Store.grows_newScope w.store (.single x v)
  refine ⟨⟨h.typed.newScope ?_ ?_, h.definite.append h.typed hgrows hnew⟩,
    List.prefix_append _ _, hgrows⟩
  · intro y u hu
    obtain ⟨rfl, rfl⟩ := Bindings.mem_of_find?_single hu
    exact hv
  · intro y u hu
    obtain ⟨rfl, rfl⟩ := Bindings.mem_of_find?_single hu
    exact ⟨List.mem_append_left _ (by simp [hdefinite]), hadmits⟩

/-- Binding a method adds the scope of its receiver. -/
theorem bind_fits {method : Closure} {i : ObjectId} {cls : Class} (hat : w.At C shapes os r)
    (hmethod : MethodFits C shapes method) (hcls : ClassFits C shapes cls) :
    Extends shapes w.store (shapes ++ [.receiver]) (w.bind method (.object i cls)).2.store ∧
      (w.bind method (.object i cls)).2.At C (shapes ++ [.receiver]) os r ∧
      FunctionFits C (shapes ++ [.receiver]) (w.bind method (.object i cls)).1 := by
  obtain ⟨hready, hextends⟩ := single_fits (o := .receiver) (x := "this") (v := .object i cls)
    hat.toReady rfl hcls ⟨i, cls, rfl⟩
  obtain ⟨os', r', decl, hknown, hdecl, hfits⟩ := hmethod
  refine ⟨hextends, hat.extend hready hextends rfl, .receiver :: os', r', decl, hknown, hdecl, ?_, ?_⟩
  · exact .scope (hat.typed.origin?_size _) (hfits.mono hextends.shapes)
  · exact fun _ => rfl

theorem serves_bind {method : Closure} (hmethod : MethodFits C shapes method) (receiver : Value) :
    (Cause.bind method receiver).Serves C shapes .receiver := by
  obtain ⟨os', r', decl, hknown, hdecl, hfits⟩ := hmethod
  exact ⟨os', .bind hknown hdecl, hfits⟩

theorem advances_boundMethod {method : Closure} {id : ObjectId} {cls : Class}
    (hat : w.At C shapes os r) (hmethod : MethodFits C shapes method)
    (hcls : ClassFits C shapes cls)
    (hwaits : Waits C shapes w.store ⟨os, r, w.env⟩ .value frames) :
    AdvancesBy C shapes w.store [.bind method (.object id cls)]
      ⟨.value (w.boundMethod method (.object id cls)).1, frames,
        (w.boundMethod method (.object id cls)).2⟩ := by
  obtain ⟨hextends, hat', hclosure⟩ := bind_fits (i := id) hat hmethod hcls
  obtain ⟨hextends', hat''⟩ := hat'.newId
  have hfits : ValueFits C (shapes ++ [.receiver]) (w.boundMethod method (.object id cls)).1 :=
    hclosure
  exact .cons hextends ((serves_bind hmethod _).mono hextends.shapes)
    (.quiet hextends' (.value hat'' hfits (hwaits.mono (hextends.trans hextends'))))

theorem advances_getProperty {id : ObjectId} {cls : Class} {name : Ident} (hat : w.At C shapes os r)
    (hcls : ClassFits C shapes cls) (hwaits : Waits C shapes w.store ⟨os, r, w.env⟩ .value frames) :
    AdvancesBy C shapes w.store (madeByGet id cls name w) (getProperty id cls name frames w) := by
  unfold madeByGet getProperty
  cases hfield : w.store.field? id name.name with
  | some v => exact .stay (.value hat (hat.typed.field hfield) hwaits)
  | none =>
    cases hmethod : cls.findMethod? name.name with
    | some method => exact advances_boundMethod hat (hcls _ _ hmethod) hcls hwaits
    | none => exact .stay (.failed hat.toReady rfl)

/-- The superclass and the receiver are where the resolver expects them. -/
theorem super_and_this {d : Nat} (hat : w.At C shapes os r)
    (hsuper : os[d + 1]? = some .superclass) (hthis : os[d]? = some .receiver) :
    ∃ sid tid cls id own, w.env[d + 1]? = some sid ∧
      w.store.find? sid "super" = some (.classRef cls) ∧ w.env[d]? = some tid ∧
      w.store.find? tid "this" = some (.object id own) := by
  obtain ⟨sid, hsid, hsorigin⟩ := hat.here.fits.get? hsuper
  obtain ⟨tid, htid, htorigin⟩ := hat.here.fits.get? hthis
  obtain ⟨u, hu⟩ := Option.isSome_iff_exists.1
    (hat.definite sid _ "super" hsorigin List.mem_cons_self)
  obtain ⟨v, hv⟩ := Option.isSome_iff_exists.1
    (hat.definite tid _ "this" htorigin List.mem_cons_self)
  obtain ⟨cls, rfl⟩ := hat.typed.admits hu hsorigin
  obtain ⟨id, own, rfl⟩ := hat.typed.admits hv htorigin
  exact ⟨sid, tid, cls, id, own, hsid, hu, htid, hv⟩

theorem superParts_eq {d : Nat} (line : Nat) (hat : w.At C shapes os r)
    (hsuper : os[d + 1]? = some .superclass) (hthis : os[d]? = some .receiver) :
    ∃ cls id own, superParts line (some (.atDistance (d + 1))) w = .ok (cls, .object id own) ∧
      ClassFits C shapes cls ∧ ClassFits C shapes own := by
  obtain ⟨sid, tid, cls, id, own, hsid, hcls, htid, hown⟩ := super_and_this hat hsuper hthis
  refine ⟨cls, id, own, ?_, hat.typed.value hcls, hat.typed.value hown⟩
  simp [superParts, Store.getAt, hsid, htid, hcls, hown, bind, Except.bind]

theorem advances_evaluateSuper {d : Nat} (line : Nat) (method : Ident) (hat : w.At C shapes os r)
    (hsuper : os[d + 1]? = some .superclass) (hthis : os[d]? = some .receiver)
    (hwaits : Waits C shapes w.store ⟨os, r, w.env⟩ .value frames) :
    AdvancesBy C shapes w.store (madeBySuper line method (some (.atDistance (d + 1))) w)
      (evaluateSuper line method (some (.atDistance (d + 1))) frames w) := by
  obtain ⟨cls, id, own, hparts, hcls, hown⟩ := superParts_eq line hat hsuper hthis
  simp only [evaluateSuper, madeBySuper, hparts]
  cases hfound : cls.findMethod? method.name with
  | some found => exact advances_boundMethod hat (hcls _ _ hfound) hown hwaits
  | none => exact .stay (.failed hat.toReady rfl)

/-! ## Calls -/

theorem newObject_fits (hat : w.At C shapes os r) :
    Extends shapes w.store shapes w.newObject.2.store ∧ w.newObject.2.At C shapes os r := by
  have hextends : Extends shapes w.store shapes w.newObject.2.store := .of_grows fun _ _ h => h
  exact ⟨hextends, hat.extend ⟨hat.typed.newObject, hat.definite⟩ hextends rfl⟩

theorem advances_instantiate {cls : Class} (arguments : List Value) (hat : w.At C shapes os r)
    (hcls : ClassFits C shapes cls)
    (hinitializer : cls.findMethod? Class.initializerName = none)
    (hwaits : Waits C shapes w.store ⟨os, r, w.env⟩ .value frames) :
    AdvancesBy C shapes w.store [] (instantiate cls arguments frames w) := by
  obtain ⟨hextends, hat'⟩ := newObject_fits hat
  unfold instantiate
  rw [hinitializer]
  exact .quiet hextends (.value hat' hcls (hwaits.mono hextends))

/-- An initializer is bound to the new instance and then called. -/
theorem advances_initializer {cls : Class} {initializer : Closure} {arguments : List Value}
    (hat : w.At C shapes os r) (hcls : ClassFits C shapes cls)
    (hinitializer : cls.findMethod? Class.initializerName = some initializer)
    (harguments : ∀ v ∈ arguments, ValueFits C shapes v)
    (hlength : arguments.length = initializer.arity)
    (hwaits : Waits C shapes w.store ⟨os, r, w.env⟩ .value frames) :
    AdvancesBy C shapes w.store [.bind initializer (.object w.store.objects.size cls),
        .call (initializer.bound w.store.scopes.size)] (instantiate cls arguments frames w) := by
  obtain ⟨hextends₁, hat₁⟩ := newObject_fits hat
  have hmethod : MethodFits C shapes initializer := hcls _ _ hinitializer
  obtain ⟨hextends₂, hat₂, hclosure⟩ := bind_fits (i := w.newObject.1) hat₁ hmethod hcls
  have hextends := hextends₁.trans hextends₂
  have hobject : ValueFits C (shapes ++ [.receiver]) (.object w.newObject.1 cls) :=
    ClassFits.mono hextends.shapes hcls
  unfold instantiate
  rw [hinitializer]
  refine .cons hextends ((serves_bind hmethod _).mono hextends.shapes) ?_
  exact advances_enterFunction hat₂ hclosure (fun v hv => (harguments v hv).mono hextends.shapes)
    hlength (.created hobject (hwaits.mono hextends))

theorem advances_callNative {native : Native} {arguments : List Value} {line : Nat}
    (hat : w.At C shapes os r) (hwaits : Waits C shapes w.store ⟨os, r, w.env⟩ .value frames) :
    AdvancesBy C shapes w.store [] (callNative native arguments line frames w) := by
  unfold callNative
  split
  · exact .quiet (.refl _ _) (.value (r := r) ⟨⟨hat.typed, hat.definite⟩, hat.here⟩ trivial hwaits)
  · exact .stay (.value hat trivial hwaits)
  · exact .stay (.value hat trivial hwaits)
  · exact .stay (.value hat trivial hwaits)
  · exact .stay (.failed hat.toReady rfl)
  · exact .stay (.failed hat.toReady rfl)

theorem advances_call {callee : Value} {arguments : List Value} {line : Nat}
    (hat : w.At C shapes os r) (hcallee : ValueFits C shapes callee)
    (harguments : ∀ v ∈ arguments, ValueFits C shapes v)
    (hwaits : Waits C shapes w.store ⟨os, r, w.env⟩ .value frames) :
    AdvancesBy C shapes w.store (madeByCall callee arguments w)
      (call callee arguments line frames w) := by
  unfold call madeByCall
  by_cases hopen : callee.arity? = some arguments.length ∧ w.depth < w.maxDepth
  · obtain ⟨harity, hdepth⟩ := hopen
    rw [if_pos ⟨harity, hdepth⟩, harity]
    dsimp only
    rw [if_neg (by simp), if_neg (Nat.not_le.2 hdepth)]
    have hat' : World.At C shapes os r { w with depth := w.depth + 1 } :=
      ⟨⟨hat.typed, hat.definite⟩, hat.here⟩
    have hleave := Waits.leave hwaits
    cases callee with
    | function id closure | method id closure =>
      exact advances_enterFunction hat' hcallee harguments (Option.some.inj harity).symm hleave
    | native id native => exact advances_callNative hat' hleave
    | classRef cls =>
      have hlength : arguments.length = cls.arity := (Option.some.inj harity).symm
      rw [Class.arity] at hlength
      dsimp only
      cases hinitializer : cls.findMethod? Class.initializerName with
      | none => exact advances_instantiate arguments hat' hcallee hinitializer hleave
      | some initializer =>
        rw [hinitializer] at hlength
        exact advances_initializer hat' hcallee hinitializer harguments hlength hleave
    | _ => cases harity
  · rw [if_neg hopen]
    split
    · exact .stay (.failed hat.toReady rfl)
    · rename_i arity harity
      split
      · exact .stay (.failed hat.toReady rfl)
      · rename_i hlength
        rw [Decidable.not_not] at hlength
        split
        · exact .stay (.failed hat.toReady rfl)
        · rename_i hdepth
          exact absurd ⟨hlength ▸ harity, Nat.not_le.1 hdepth⟩ hopen

/-! ## Classes -/

theorem mem_of_find?_methodTable {env : Env} {methods : List FunDecl} {x : String} {c : Closure}
    (h : (methodTable env methods).find? x = some c) : c.decl ∈ methods ∧ c.env = env := by
  unfold methodTable at h
  revert h
  apply List.foldlRecOn (motive := fun table : Bindings Closure =>
    table.find? x = some c → c.decl ∈ methods ∧ c.env = env)
  · intro h
    cases h
  · intro table ih decl hdecl h
    split at h
    · exact ih h
    · rcases Bindings.mem_of_find?_put h with ⟨-, rfl⟩ | h
      · exact ⟨hdecl, rfl⟩
      · exact ih h

/-- Every method of a class stands at a site of its own. -/
theorem known_of_mem_methods {decls : List FunDecl} {decl : FunDecl}
    (hknown : KnownIn C ⟨os, r, .methods decls⟩) (h : decl ∈ (resolveMethods decls).outcome r) :
    ∃ decl₀, KnownIn C ⟨os, r, .function decl₀⟩ ∧ decl = decl₀.resolve.outcome r := by
  induction decls with
  | nil => cases h
  | cons first rest ih =>
    have hfirst : KnownIn C ⟨os, r, .function first⟩ := hknown.child List.mem_cons_self
    have hrest : KnownIn C ⟨os, first.resolve.after r, .methods rest⟩ :=
      hknown.child (List.mem_cons_of_mem _ List.mem_cons_self)
    have hafter : first.resolve.after r = r :=
      Keeps.eq (hfirst.proper.regular.effect r) hfirst.proper.quiet
    rw [hafter] at hrest
    change decl ∈ first.resolve.outcome r ::
      (resolveMethods rest).outcome (first.resolve.after r) at h
    rw [hafter] at h
    rcases List.mem_cons.1 h with rfl | h
    · exact ⟨first, hfirst, rfl⟩
    · exact ih hrest h

theorem classFits_of_methods {decls : List FunDecl} {env : Env} {id : Nat} {name : String}
    {inherited : List Layer} (hknown : KnownIn C ⟨.receiver :: os, r, .methods decls⟩)
    (hfits : Fits shapes env os)
    (hinherited : ∀ name method, inherited.findSome? (fun layer => layer.methods.find? name) =
      some method → MethodFits C shapes method) :
    ClassFits C shapes
      ⟨⟨id, name, methodTable env ((resolveMethods decls).outcome r)⟩, inherited⟩ := by
  intro x method hmethod
  rw [Class.findMethod?, List.findSome?_cons] at hmethod
  split at hmethod
  · rename_i c hc
    obtain rfl := Option.some.inj hmethod
    obtain ⟨hdecl, rfl⟩ := mem_of_find?_methodTable hc
    obtain ⟨decl₀, hdecl₀, heq⟩ := known_of_mem_methods hknown hdecl
    exact ⟨os, r, decl₀, hdecl₀, heq, hfits⟩
  · exact hinherited x method hmethod

/-- A variable is bound where it is declared, and is visible from then on. -/
theorem advances_define {r' : Scoping} {x : String} {v : Value} {b c : Bool}
    (hat : w.At C shapes os r) (hv : ValueFits C shapes v) (hx : DeclaredIn C os x)
    (hshows : ∀ {d y}, r'.Shows d y → (d = 0 ∧ y = x) ∨ r.Shows d y)
    (hwaits : Waits C shapes w.store ⟨os, r', w.env⟩ (.completion b c) frames) :
    AdvancesBy C shapes w.store [] ⟨.completed .normal, frames, w.define x v⟩ := by
  obtain ⟨htyped, hgrows, id, hid, hbinds⟩ :=
    World.define_fits hat.typed hat.here.fits hv hx
  have hextends : Extends shapes w.store shapes (w.define x v).store := .of_grows hgrows
  have hat' : (w.define x v).At C shapes os r' :=
    ⟨⟨htyped, hat.definite.mono hgrows⟩, (hextends.here hat.here).declared hid hbinds hshows⟩
  exact .quiet hextends (.completed hat' trivial (hwaits.mono hextends))

/-- The name of the class is bound, so that the class can be assigned to it. -/
theorem advances_finishClass {name : Ident} {env : Env} {inherited : List Layer}
    {methods : List FunDecl} {id : ScopeId} {b c : Bool} (hat : w.At C shapes os r)
    (hname : DeclaredIn C os name.name)
    (hid : w.env[0]? = some id) (hbinds : w.store.Binds id name.name)
    (hcls : ValueFits C shapes
      (.classRef ⟨⟨w.newId.1, name.name, methodTable env methods⟩, inherited⟩))
    (hwaits : Waits C shapes w.store ⟨os, r.declaring name.name, w.env⟩ (.completion b c) frames) :
    AdvancesBy C shapes w.store [] (finishClass name env inherited methods frames w) := by
  obtain ⟨hextends₁, hat₁⟩ := hat.newId
  have hid' : w.newId.2.env[0]? = some id := hid
  have hbinds' : w.newId.2.store.Binds id name.name := hbinds
  have hassign := Store.assign_eq_define hid' hbinds'
    (.classRef ⟨⟨w.newId.1, name.name, methodTable env methods⟩, inherited⟩) name.line
  simp only [finishClass, hassign]
  exact .after hextends₁
    (advances_define hat₁ hcls hname Shows.of_declaring (hwaits.mono hextends₁))

/-- The name of a class is bound before its methods are made. -/
theorem defineName_fits {name : Ident} (hat : w.At C shapes os r)
    (hname : DeclaredIn C os name.name) :
    Extends shapes w.store shapes (w.define name.name .nil).store ∧
      (w.define name.name .nil).At C shapes os r ∧
      ∃ id, w.env[0]? = some id ∧ (w.define name.name .nil).store.Binds id name.name := by
  obtain ⟨htyped, hgrows, hbinds⟩ :=
    World.define_fits (v := .nil) hat.typed hat.here.fits trivial hname
  have hextends : Extends shapes w.store shapes (w.define name.name .nil).store := .of_grows hgrows
  exact ⟨hextends, hat.extend ⟨htyped, hat.definite.mono hgrows⟩ hextends rfl, hbinds⟩

theorem advances_class {name : Ident} {decls : List FunDecl} {r' : Scoping} {b c : Bool}
    (hat : w.At C shapes os r) (hname : DeclaredIn C os name.name)
    (hmethods : KnownIn C ⟨.receiver :: os, r', .methods decls⟩)
    (hwaits : Waits C shapes w.store ⟨os, r.declaring name.name, w.env⟩ (.completion b c) frames) :
    AdvancesBy C shapes w.store []
      (makeClass name none ((resolveMethods decls).outcome r') frames w) := by
  obtain ⟨hextends, hat', id, hid, hbinds⟩ := defineName_fits hat hname
  rw [makeClass_none]
  refine .after hextends ?_
  refine advances_finishClass hat' hname hid hbinds ?_ (hwaits.mono hextends)
  exact classFits_of_methods hmethods hat.here.fits (by simp)

/-- The scope of the superclass is outside those of the receivers, and inside those in force. -/
theorem advances_subclass {name : Ident} {decls : List FunDecl} {parent : Class} {r' : Scoping}
    {b c : Bool} (hat : w.At C shapes os r) (hname : DeclaredIn C os name.name)
    (hparent : ClassFits C shapes parent)
    (hcause : (Cause.inherit w.env parent ((resolveMethods decls).outcome r')).Opens C
      .superclass os)
    (hmethods : KnownIn C ⟨.receiver :: .superclass :: os, r', .methods decls⟩)
    (hwaits : Waits C shapes w.store ⟨os, r.declaring name.name, w.env⟩ (.completion b c) frames) :
    AdvancesBy C shapes w.store [.inherit w.env parent ((resolveMethods decls).outcome r')]
      (makeClass name (some parent) ((resolveMethods decls).outcome r') frames w) := by
  obtain ⟨hextends₁, hat₁, id, hid, hbinds⟩ := defineName_fits hat hname
  obtain ⟨hready₂, hextends₂⟩ := single_fits (o := .superclass) (x := "super")
    (v := .classRef parent) hat₁.toReady rfl hparent ⟨parent, rfl⟩
  have hextends := hextends₁.trans hextends₂
  have houter : Fits (shapes ++ [.superclass]) w.env os := hat.here.fits.mono hextends.shapes
  rw [makeClass_some]
  refine .cons hextends ⟨os, hcause, houter⟩ ?_
  refine advances_finishClass (hat₁.extend hready₂ hextends₂ rfl) hname hid
    (hextends₂.grows _ _ hbinds) ?_ (hwaits.mono hextends)
  refine classFits_of_methods hmethods (.scope (hat₁.typed.origin?_size _) houter) ?_
  exact fun x method hmethod => (ClassFits.mono hextends.shapes hparent) x method hmethod

end Machine

end Lox
