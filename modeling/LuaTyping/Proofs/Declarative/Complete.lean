import LuaTyping.Proofs.Declarative.Sound
import LuaTyping.Proofs.Typing.Values

/-!
# What has a type is accepted

Conversely to `Expr.check_derives`, nothing wrong is found about an expression that has a type, and
the check gives it that type; an expression that fits is accepted (`Expr.check_accepts`).  Together,
the checker decides the type system of expressions (`Expr.check_exact`).
-/

namespace LuaTyping

variable {Γ : Context}

/-! ### Names and members -/

namespace Context

theorem nameExpr_of_var {name : String} (loc : Location) {binding : Binding}
    (h : Γ.scopes.var? name = some binding) :
    ∃ t, (Γ.nameExpr name loc).Yields t ∧ t.ty = binding.ty := by
  obtain ⟨ty, site, kind⟩ := binding
  rw [nameExpr, Scopes.lookup_eq_var_iff.mpr h]
  cases kind <;> exact ⟨_, Report.yields_pure.mpr rfl, rfl⟩

theorem nameExpr_of_builtin {name : String} {loc : Location} {ty : Ty}
    (hv : Γ.scopes.var? name = none)
    (hb : Γ.scopes.builtins.get? name = some (.function ty)) :
    (Γ.nameExpr name loc).Yields ⟨.builtin name, ty, loc⟩ := by
  rw [nameExpr, Scopes.lookup_eq_builtin_iff.mpr ⟨hv, hb⟩]
  exact Report.yields_pure.mpr rfl

/-- An expression with a type is not the bare name of a library. -/
theorem library?_eq_none {object : Source.Expr} {ty : Ty} (h : object.HasType Γ ty) :
    Γ.library? object = none := by
  rw [Option.eq_none_iff_forall_ne_some]
  rintro ⟨library, members⟩ hl
  obtain ⟨⟨site, rfl⟩, hlookup⟩ := library?_eq_some_iff.mp hl
  obtain ⟨hv, hb⟩ := Scopes.lookup_eq_library_iff.mp hlookup
  cases h with
  | var h =>
    rw [hv] at h
    cases h
  | builtin _ h =>
    rw [hb] at h
    cases h

theorem fieldExpr_of_fields {object : Typed.Expr} {field : String} {loc : Location}
    {fields : NameMap Ty} {ty : Ty} (hf : object.ty.fields? = some fields)
    (hl : fields.lookup field = some ty) :
    (Γ.fieldExpr object field loc).Yields ⟨.field object field, ty, loc⟩ := by
  unfold fieldExpr
  cases hty : object.ty <;> simp only [hty, Ty.fields?, reduceCtorEq, Option.some.injEq] at hf
  all_goals
    subst hf
    simp [hl]

theorem fieldExpr_of_module {object : Typed.Expr} {field : String} {loc : Location}
    {fields : NameMap Ty} {declared : Declared} (hty : object.ty = .module fields)
    (hl : Γ.module.fields.lookup field = some declared) :
    (Γ.fieldExpr object field loc).Yields
      ⟨.moduleField (Γ.module.name?.getD "") field, declared.ty, loc⟩ := by
  unfold fieldExpr
  rw [hty]
  simp [hl]

end Context

/-! ### Values that suit -/

namespace Typed.Expr

theorem exists_coerce (expr : Expr) (want : Want) (he : expr.ty.proper true = true)
    (hw : want.ty.proper true = true) (h : expr.ty.Suits want.ty) :
    ∃ t, (expr.coerce want).Yields t := by
  obtain ⟨t, ht⟩ := exists_coerced ((Ty.suits_iff_castable he hw).mp h)
  exact ⟨t, coerce_yields_iff.mpr ht⟩

/-- Results that suit what is wanted of them, from one of them on, are accepted. -/
theorem exists_results (loc : Location) {wanted : List Ty} (site : Nat → Site) (position : Nat)
    (hw : Known wanted) {tys : List Ty} {j : Nat} (htys : Known tys)
    (h : List.Forall₂ Ty.Suits tys (wanted.drop j)) :
    ∃ values, (results loc (Want.at? (wanted.map some) site position) j tys).Yields values ∧
      values.length = tys.length := by
  induction tys generalizing j with
  | nil => exact ⟨[], Report.yields_pure.mpr rfl, rfl⟩
  | cons ty rest ih =>
    have hj : j < wanted.length := by
      have hlen := h.length_eq
      rw [List.length_cons, List.length_drop] at hlen
      omega
    rw [List.drop_eq_getElem_cons hj, List.forall₂_cons] at h
    rw [Known.cons_iff] at htys
    obtain ⟨value, hv⟩ := exists_coerce ⟨.callResult j, ty, loc⟩ ⟨wanted[j], site (position + j)⟩
      htys.1 (hw _ (List.getElem_mem hj)) h.1
    obtain ⟨values, hvs, hlen⟩ := ih htys.2 h.2
    refine ⟨value :: values, ?_, by simp [hlen]⟩
    simp only [results, Report.yields_bind, Report.yields_pure, Want.at?_map_some hj]
    exact ⟨value, hv, values, hvs, rfl⟩

end Typed.Expr

/-- A call whose results suit what is wanted of them gives as many values. -/
theorem Values.exists_ofCall {callee : Typed.Expr} {args : List Typed.Expr}
    {returns wanted : List Ty} {loc : Location} {site : Nat → Site} {position : Nat}
    (hr : Known returns) (hw : Known wanted) (h : List.Forall₂ Ty.Suits returns wanted) :
    ∃ values, (ofCall ⟨.call callee args returns, returns.headD .nil, loc⟩ (wanted.map some) site
      position).Yields values ∧ values.types.length = wanted.length := by
  cases h with
  | nil =>
    refine ⟨⟨[⟨.call callee args [], .nil, loc⟩], [], false⟩, ?_, rfl⟩
    simp [ofCall, Typed.Expr.valueTypes]
  | @cons ty want rest wants hsuit hrest =>
    cases hrest with
    | nil =>
      rw [Known.cons_iff] at hr hw
      obtain ⟨value, hv⟩ := Typed.Expr.exists_coerce ⟨.call callee args [ty], ty, loc⟩
        ⟨want, site position⟩ hr.1 hw.1 hsuit
      refine ⟨⟨[value], [value.ty], value.ty.isUnknown⟩, ?_, rfl⟩
      simp only [ofCall, Typed.Expr.valueTypes, Report.yields_bind, Report.yields_pure]
      exact ⟨value, hv, rfl⟩
    | @cons ty' want' rest wants hsuit' hrest =>
      obtain ⟨results, hres, hlen⟩ := Typed.Expr.exists_results loc site position (j := 0) hw hr
        (.cons hsuit (.cons hsuit' hrest))
      simp only [ofCall, Typed.Expr.valueTypes, Typed.Expr.spread, Report.yields_bind,
        Report.yields_pure]
      refine ⟨_, ⟨_, ⟨results, hres, rfl⟩, rfl⟩, ?_⟩
      simp [hlen, hrest.length_eq]

theorem requireFields_of_mem {target : Ty} {loc : Location} {given : List String}
    {fields : List (String × Ty)} (h : ∀ field ∈ fields, field.1 ∈ given) :
    (requireFields target loc given fields).Yields () := by
  induction fields with
  | nil => exact Report.yields_pure.mpr rfl
  | cons field rest ih =>
    rw [List.forall_mem_cons] at h
    simp only [requireFields, Report.yields_bind, Report.yields_require]
    exact ⟨(), by simpa using h.1, ih h.2⟩

/-! ### Expressions -/

namespace Source.Expr

/-- An expression other than a call or a table constructor is a value. -/
theorem check_value_of_results {expr : Source.Expr} {t : Typed.Expr} (hc : expr.isCall = false)
    (hi : expr.isInit = false) (h : (check Γ expr .results).Yields t) :
    (check Γ expr .value).Yields t := by
  refine (check_yields_iff hi).mpr ⟨t, h, rfl, ?_⟩
  have hone := valueTypes_of_not_isCall hc h
  rw [Typed.Expr.valueTypes] at hone
  unfold Typed.Expr.isVoid
  split
  · next hkind =>
    rw [hkind] at hone
    cases hone
  · rfl

/-- What has a type is given it by the check, and what fits is accepted. -/
structure Accepts (Γ : Context) (expr : Source.Expr) : Prop where
  hasType : ∀ {ty : Ty}, expr.HasType Γ ty → ∃ t, (check Γ expr .value).Yields t ∧ t.ty = ty
  fits : ∀ {ty : Ty}, expr.Fits Γ ty → ty.proper true = true →
    ∀ site : Site, ∃ t, (check Γ expr (.ofType ⟨ty, site⟩)).Yields t

/-- Values that fit are accepted, and there are as many as are wanted. -/
def ArgsAccept (Γ : Context) (args : List Source.Expr) : Prop :=
  ∀ {wanted : List Ty}, ListFits Γ args wanted → Known wanted →
    ∀ (site : Nat → Site) (position : Nat),
      ∃ values, (checkValues Γ site args (wanted.map some) position).Yields values ∧
        values.types.length = wanted.length

/-- An expression other than a table constructor fits by its type. -/
theorem Accepts.of_hasType (hΓ : Known Γ.typesInSight) {expr : Source.Expr}
    (hi : expr.isInit = false)
    (h : ∀ {ty : Ty}, expr.HasType Γ ty → ∃ t, (check Γ expr .value).Yields t ∧ t.ty = ty) :
    Accepts Γ expr where
  hasType := h
  fits := by
    intro wanted hfits hwanted site
    cases hfits with
    | value he hs =>
      obtain ⟨_, hf, rfl⟩ := h he
      obtain ⟨found, hr, rfl, hvoid⟩ := (check_yields_iff hi).mp hf
      obtain ⟨t, ht⟩ := Typed.Expr.exists_coerced
        ((Ty.suits_iff_castable (he.proper hΓ) hwanted).mp hs)
      exact ⟨t, (check_yields_iff hi).mpr ⟨_, hr, hvoid, ht⟩⟩
    | array | table | module => cases hi

/-- One more value in front. -/
theorem Accepts.checkValues_cons {expr : Source.Expr} {rest : List Source.Expr} {ty : Ty}
    {tys : List Ty} (hexpr : Accepts Γ expr) (hrest : ArgsAccept Γ rest)
    (hlast : rest = [] → expr.isCall = false) (he : expr.Fits Γ ty) (hr : ListFits Γ rest tys)
    (hw : Known (ty :: tys)) (site : Nat → Site) (position : Nat) :
    ∃ values, (checkValues Γ site (expr :: rest) ((ty :: tys).map some) position).Yields values ∧
      values.types.length = (ty :: tys).length := by
  rw [Known.cons_iff] at hw
  obtain ⟨value, hv⟩ := hexpr.fits he hw.1 (site position)
  obtain ⟨values, hvs, hlen⟩ := hrest hr hw.2 site (position + 1)
  refine ⟨values.cons value, ?_, by simp [Values.cons, hlen]⟩
  have hsingle : ¬(rest.isEmpty && expr.isCall) = true := by
    rw [Bool.and_eq_true, List.isEmpty_iff]
    rintro ⟨hnil, hcall⟩
    rw [hlast hnil] at hcall
    cases hcall
  rw [checkValues, if_neg hsingle, Report.yields_bind]
  exact ⟨value, hv, Report.yields_bind.mpr ⟨values, hvs, Report.yields_pure.mpr rfl⟩⟩

/-- A call whose callee has the type of a function that its arguments fit has all its results. -/
theorem check_call_accepts (hΓ : Known Γ.typesInSight) {callee : Source.Expr}
    {args : List Source.Expr} {params returns : List Ty} (loc : Location)
    (hcallee : Accepts Γ callee) (hargs : ArgsAccept Γ args)
    (hc : callee.HasType Γ (.function params returns)) (ha : ListFits Γ args params) :
    Known returns ∧ ∃ found values, (check Γ (.call callee args loc) .results).Yields
      ⟨.call found values returns, returns.headD .nil, loc⟩ := by
  have hproper := hc.proper hΓ
  rw [Ty.proper_function_iff] at hproper
  obtain ⟨found, hf, hty⟩ := hcallee.hasType hc
  obtain ⟨values, hv, hlen⟩ := hargs ha hproper.1 (fun i => .argument (i + 1)) 0
  refine ⟨hproper.2, found, values.exprs, ?_⟩
  simp only [check, hf.bind_eq, hty, hv.bind_eq, Report.yields_bind, Report.yields_require]
  exact ⟨(), by simp [Values.fits, hlen], Report.yields_pure.mpr rfl⟩

mutual

/-- **An expression that has a type is given it by the check**, and one that fits is accepted. -/
theorem check_accepts (hΓ : Known Γ.typesInSight) : ∀ (expr : Source.Expr), Accepts Γ expr
  | .nil loc | .boolean _ loc | .integer _ loc | .float _ loc | .string _ loc => by
    refine .of_hasType hΓ rfl fun h => ?_
    cases h
    exact ⟨_, check_value_of_results rfl rfl (Report.yields_pure.mpr rfl), rfl⟩
  | .init entries loc => by
    constructor
    · intro ty h
      cases h
    · intro ty h hty site
      cases h with
      | value he _ => cases he
      | @array _ _ elem hi =>
        rw [Ty.proper] at hty
        obtain ⟨items, hitems⟩ := checkItems_accepts hΓ entries hi hty
        refine ⟨⟨.arrayInit items, .array elem, loc⟩, ?_⟩
        rw [check, hitems.bind_eq]
        exact Report.yields_pure.mpr rfl
      | table hf hi hn hg =>
        obtain ⟨items, hitems⟩ := checkFields_accepts hΓ entries ty [] hi
          (Ty.proper_of_fields? hty hf) hn (by simp)
        refine ⟨⟨.tableInit items, ty, loc⟩, ?_⟩
        cases ty <;> simp only [Ty.fields?, reduceCtorEq, Option.some.injEq] at hf
        all_goals
          subst hf
          rw [check, hitems.bind_eq, (requireFields_of_mem hg).bind_eq]
          exact Report.yields_pure.mpr rfl
      | @module _ fields =>
        refine ⟨⟨.moduleInit, .module fields, loc⟩, ?_⟩
        rw [check]
        exact Report.yields_pure.mpr rfl
  | .name text loc => by
    refine .of_hasType hΓ rfl fun {ty} h => ?_
    cases h with
    | var h =>
      obtain ⟨t, ht, hty⟩ := Context.nameExpr_of_var loc h
      refine ⟨t, check_value_of_results rfl rfl ?_, hty⟩
      rw [check, ht.bind_eq]
      exact Report.yields_pure.mpr rfl
    | builtin hv hb =>
      refine ⟨⟨.builtin text, ty, loc⟩, check_value_of_results rfl rfl ?_, rfl⟩
      rw [check, (Context.nameExpr_of_builtin hv hb).bind_eq]
      exact Report.yields_pure.mpr rfl
  | .index object key loc => by
    refine .of_hasType hΓ rfl fun {ty} h => ?_
    cases h with
    | index ho hk =>
      obtain ⟨object', ho', hty⟩ := (check_accepts hΓ object).hasType ho
      obtain ⟨key', hk'⟩ := (check_accepts hΓ key).fits hk rfl .arrayIndex
      refine ⟨⟨.index object' key', ty, loc⟩, check_value_of_results rfl rfl ?_, rfl⟩
      simp only [check, ho'.bind_eq, hty, Ty.element, pure_bind, hk'.bind_eq]
      exact Report.yields_pure.mpr rfl
  | .field object key loc => by
    refine .of_hasType hΓ rfl fun {ty} h => ?_
    cases h with
    | @member library _ loc' _ members _ hv hb hl =>
      have hlibrary : Γ.library? (.name library loc') = some (library, members) :=
        Context.library?_eq_some_iff.mpr ⟨⟨loc', rfl⟩, Scopes.lookup_eq_library_iff.mpr ⟨hv, hb⟩⟩
      refine ⟨⟨.libraryField library key, ty, loc⟩, check_value_of_results rfl rfl ?_, rfl⟩
      simp only [check, hlibrary, Typed.Expr.ofMember, hl, Report.orUnknown, pure_bind]
      exact Report.yields_pure.mpr rfl
    | field ho hf hl =>
      obtain ⟨object', ho', rfl⟩ := (check_accepts hΓ object).hasType ho
      refine ⟨⟨.field object' key, ty, loc⟩, check_value_of_results rfl rfl ?_, rfl⟩
      simp only [check, Context.library?_eq_none ho, ho'.bind_eq,
        (Context.fieldExpr_of_fields hf hl).bind_eq]
      exact Report.yields_pure.mpr rfl
    | @moduleField _ _ _ _ declared ho hl =>
      obtain ⟨object', ho', hty⟩ := (check_accepts hΓ object).hasType ho
      refine ⟨⟨.moduleField (Γ.module.name?.getD "") key, declared.ty, loc⟩,
        check_value_of_results rfl rfl ?_, rfl⟩
      simp only [check, Context.library?_eq_none ho, ho'.bind_eq,
        (Context.fieldExpr_of_module hty hl).bind_eq]
      exact Report.yields_pure.mpr rfl
  | .call callee args loc => by
    refine .of_hasType hΓ rfl fun h => ?_
    cases h with
    | call hc ha =>
      obtain ⟨-, found, values, ht⟩ := check_call_accepts hΓ loc (check_accepts hΓ callee)
        (checkValues_accepts hΓ args) hc ha
      exact ⟨_, (check_yields_iff rfl).mpr ⟨_, ht, rfl, rfl⟩, rfl⟩
  | .unary op operand loc => by
    refine .of_hasType hΓ rfl fun h => ?_
    cases h with
    | unary ho hop =>
      obtain ⟨operand', ho', rfl⟩ := (check_accepts hΓ operand).hasType ho
      have hk := Ty.not_isUnknown_of_proper (ho.proper hΓ)
      obtain ⟨t, ht, hty⟩ := (Typed.Expr.unary_yields_iff hk).mpr hop
      refine ⟨t, check_value_of_results rfl rfl ?_, hty⟩
      rw [check, ho'.bind_eq, ht.bind_eq]
      exact Report.yields_pure.mpr rfl
  | .binary left op right loc => by
    refine .of_hasType hΓ rfl fun h => ?_
    cases h with
    | binary hl hr hop =>
      obtain ⟨left', hl', rfl⟩ := (check_accepts hΓ left).hasType hl
      obtain ⟨right', hr', rfl⟩ := (check_accepts hΓ right).hasType hr
      have hkl := Ty.not_isUnknown_of_proper (hl.proper hΓ)
      have hkr := Ty.not_isUnknown_of_proper (hr.proper hΓ)
      obtain ⟨t, ht, hty⟩ := (Typed.Expr.binary_yields_iff hkl hkr).mpr hop
      refine ⟨t, check_value_of_results rfl rfl ?_, hty⟩
      rw [check, hl'.bind_eq, hr'.bind_eq, ht.bind_eq]
      exact Report.yields_pure.mpr rfl
  | .cast expr type loc => by
    refine .of_hasType hΓ rfl fun {target} h => ?_
    cases h with
    | cast he hd hs =>
      obtain ⟨expr', he', rfl⟩ := (check_accepts hΓ expr).hasType he
      have hproper := hd.proper fun _ _ => Context.typeName_proper hΓ
      have hcast := (Ty.suits_iff_castable (he.proper hΓ) hproper).mp hs
      refine ⟨⟨.cast expr' false, target, loc⟩, check_value_of_results rfl rfl ?_, rfl⟩
      simp only [check, Report.yields_bind, Report.yields_require, TypeExpr.resolve_yields_iff]
      exact ⟨expr', he', target, hd, (), hcast, Report.yields_pure.mpr rfl⟩
  | .paren expr loc => by
    refine .of_hasType hΓ rfl fun h => ?_
    cases h with
    | paren he =>
      obtain ⟨expr', he', rfl⟩ := (check_accepts hΓ expr).hasType he
      refine ⟨⟨.paren expr', expr'.ty, loc⟩, check_value_of_results rfl rfl ?_, rfl⟩
      rw [check, he'.bind_eq]
      exact Report.yields_pure.mpr rfl

theorem checkValues_accepts (hΓ : Known Γ.typesInSight) :
    ∀ (exprs : List Source.Expr), ArgsAccept Γ exprs
  | [], _, h, _, _, _ => by
    cases h
    exact ⟨.empty, Report.yields_pure.mpr rfl, rfl⟩
  | expr :: rest, _, h, hw, site, position => by
    have hexpr := check_accepts hΓ expr
    have hrest : ArgsAccept Γ rest := checkValues_accepts hΓ rest
    -- the expression first and then the derivation: the recursion goes into the parts of a call
    cases expr with
    | call callee args loc =>
      have hcallee := check_accepts hΓ callee
      have hargs : ArgsAccept Γ args := checkValues_accepts hΓ args
      cases h with
      | cons hlast he hr => exact hexpr.checkValues_cons hrest hlast he hr hw site position
      | call hc ha hs =>
        obtain ⟨hknown, found, typed, ht⟩ := check_call_accepts hΓ loc hcallee hargs hc ha
        obtain ⟨values, hv, hlen⟩ := Values.exists_ofCall hknown hw hs
        exact ⟨values, Report.yields_bind.mpr ⟨_, ht, hv⟩, hlen⟩
    | _ =>
      cases h with
      | cons hlast he hr => exact hexpr.checkValues_cons hrest hlast he hr hw site position

theorem checkItems_accepts (hΓ : Known Γ.typesInSight) :
    ∀ (entries : List Entry) {elem : Ty}, ItemsFit Γ elem entries → elem.proper true = true →
      ∃ items, (checkItems Γ elem entries).Yields items
  | [], _, _, _ => ⟨[], Report.yields_pure.mpr rfl⟩
  | .named _ _ _ :: _, _, h, _ => by cases h
  | .positional value :: rest, elem, h, helem => by
    cases h with
    | cons hv hr =>
      obtain ⟨value', hv'⟩ := (check_accepts hΓ value).fits hv helem .arrayInitializer
      obtain ⟨items, hr'⟩ := checkItems_accepts hΓ rest hr helem
      refine ⟨value' :: items, ?_⟩
      rw [checkItems, hv'.bind_eq, hr'.bind_eq]
      exact Report.yields_pure.mpr rfl

theorem checkFields_accepts (hΓ : Known Γ.typesInSight) :
    ∀ (entries : List Entry) (target : Ty) (seen : List String) {fields : NameMap Ty},
      FieldsFit Γ fields entries → Ty.properFields true fields = true →
        (Entry.names entries).Nodup → (∀ key ∈ Entry.names entries, key ∉ seen) →
          ∃ items, (checkFields Γ target fields entries seen).Yields items
  | [], _, _, _, _, _, _, _ => ⟨[], Report.yields_pure.mpr rfl⟩
  | .positional _ :: _, _, _, _, h, _, _, _ => by cases h
  | .named key value loc :: rest, target, seen, fields, h, hf, hn, hs => by
    cases h with
    | cons hl hv hr =>
      rw [Entry.names, List.nodup_cons] at hn
      rw [Entry.names, List.forall_mem_cons] at hs
      -- the names still to come are new, also beside this one
      have hseen : ∀ name ∈ Entry.names rest, name ∉ key :: seen := by
        intro name hname hmem
        rcases List.mem_cons.mp hmem with rfl | hmem
        · exact hn.1 hname
        · exact hs.2 name hname hmem
      obtain ⟨value', hv'⟩ := (check_accepts hΓ value).fits hv (Ty.proper_of_lookup hf hl)
        (.initializerField key)
      obtain ⟨items, hr'⟩ := checkFields_accepts hΓ rest target (key :: seen) hr hf hn.2 hseen
      refine ⟨(key, value') :: items, ?_⟩
      rw [checkFields, if_neg (by simpa using hs.1), hl]
      simp only [hv'.bind_eq, hr'.bind_eq]
      exact Report.yields_pure.mpr rfl

end

/-- **The checker decides the type system of expressions.**  If no type in sight has `unknown` in
it, nothing wrong is found about an expression exactly if it has a type, which is the one that the
check gives it and has no `unknown` in it either; and where a type without `unknown` is wanted, an
expression is accepted exactly if it fits. -/
theorem check_exact (Γ : Context) (expr : Source.Expr) (hΓ : Known Γ.typesInSight) :
    ((check Γ expr .value).faults = [] ↔ ∃ ty, expr.HasType Γ ty) ∧
      (∀ ty, expr.HasType Γ ty → (check Γ expr .value).value.ty = ty ∧ ty.proper true = true) ∧
        ∀ ty site, ty.proper true = true →
          ((check Γ expr (.ofType ⟨ty, site⟩)).faults = [] ↔ expr.Fits Γ ty) := by
  have hderives := check_derives hΓ expr
  have haccepts := check_accepts hΓ expr
  refine ⟨⟨?_, ?_⟩, ?_, fun ty site hty => ⟨?_, ?_⟩⟩
  · intro h
    exact ⟨_, hderives.hasType (Report.yields_value h)⟩
  · rintro ⟨ty, h⟩
    obtain ⟨t, ht, -⟩ := haccepts.hasType h
    exact ht.faults_eq
  · intro ty h
    obtain ⟨t, ht, hty⟩ := haccepts.hasType h
    rw [ht.value_eq]
    exact ⟨hty, h.proper hΓ⟩
  · intro h
    exact hderives.fits hty (Report.yields_value h)
  · intro h
    obtain ⟨t, ht⟩ := haccepts.fits h hty site
    exact ht.faults_eq

/-- Inside a function, with a function in sight that gives two values and one that takes a table
before two such values. -/
def measuring : Context :=
  let var (ty : Ty) : Binding := ⟨ty, .nowhere, .inner⟩
  let area := Ty.function [.table [("width", .float)], .integer, .string] [.float]
  { Context.start .standard with
    scopes := ⟨.standard, [[("area", var area), ("rest", var (.function [] [.integer, .any]))]],
      [], []⟩ }

/-- The call at the end of the arguments gives two of them, one of type `any`; without the width,
there is no type. -/
theorem measuring_exact :
    let here := Location.nowhere
    let area (entries : List Entry) : Source.Expr := .binary (.call (.name "area" here)
      [.init entries here, .call (.name "rest" here) [] here] here) .add (.integer 1 here) here
    let sized := area [.named "width" (.float 2 here) here]
    Known measuring.typesInSight ∧
      ((check measuring sized .value).faults = [] ∧
        (check measuring sized .value).value.ty = .float) ∧
          ¬∃ ty, (area []).HasType measuring ty := by
  intro here area sized
  have hknown : Known measuring.typesInSight := by
    unfold Known
    decide
  have harea : (Source.Expr.name "area" here).HasType measuring
      (.function [.table [("width", .float)], .integer, .string] [.float]) := by
    exact HasType.var (rfl : measuring.scopes.var? "area" = some ⟨_, .nowhere, .inner⟩)
  have hrest : (Source.Expr.name "rest" here).HasType measuring
      (.function [] [.integer, .any]) := by
    exact HasType.var (rfl : measuring.scopes.var? "rest" = some ⟨_, .nowhere, .inner⟩)
  have hsized : sized.HasType measuring .float := by
    refine .binary (.call harea (.cons (by simp) ?_ (.call hrest .nil ?_))) .integer
      (.floats rfl rfl rfl (Or.inl rfl))
    · refine .table rfl (.cons rfl (.value .float (Or.inl rfl)) .nil) ?_ ?_
      · decide
      · decide
    · exact .cons (Or.inl rfl) (.cons (Or.inr (Or.inl rfl)) .nil)
  obtain ⟨hfaults, htype, -⟩ := check_exact measuring sized hknown
  refine ⟨hknown, ⟨hfaults.mpr ⟨_, hsized⟩, (htype _ hsized).1⟩, ?_⟩
  rw [← (check_exact measuring (area []) hknown).1]
  decide

end Source.Expr

end LuaTyping
