import LuaTyping.Proofs.Soundness.Env
import LuaTyping.Proofs.Undeclared.Blur
import LuaTyping.Proofs.Undeclared.Edit
import LuaTyping.Proofs.Undeclared.Quiet

/-!
# Contexts with types that are unknown in part

`Γ.Blurs ρ N Γ'` says that `Γ'` has the names of `Γ`, with blurred types, and that `N` is no type
name.  Annotations that are resolved in `Γ`, with parts replaced by `N`, are resolved in `Γ'` to
blurred types with a fault for each replacement (`TypeExpr.Edits.resolve`), and declarations in both
contexts lead to such contexts again.
-/

namespace LuaTyping

variable {ρ : String → NameMap Ty} {N : String}

open Typed (Env)

/-! ### Environments -/

/-- A variable of the same kind with a blurred type. -/
def VarKind.Blurs (ρ : String → NameMap Ty) (var var' : VarKind × Ty) : Prop :=
  var'.1 = var.1 ∧ var.2.Blurs ρ var'.2

/-- The same names in sight, with blurred types. -/
structure Typed.Env.Blurs (ρ : String → NameMap Ty) (E E' : Env) : Prop where
  builtins : E'.builtins = E.builtins
  plain : ∀ ty ∈ E.builtins.types, ty.Blurs ρ ty
  vars : ∀ name, Option.Rel (VarKind.Blurs ρ) (E.vars name) (E'.vars name)
  module : E'.module = E.module
  fields : ∀ field, Option.Rel (Ty.Blurs ρ) (E.fields field) (E'.fields field)
  returns : List.Forall₂ (Ty.Blurs ρ) E.returns E'.returns
  inLoop : E'.inLoop = E.inLoop

/-- A declared name of the same name and with a blurred type. -/
def Typed.Decl.Blurs (ρ : String → NameMap Ty) (decl decl' : Typed.Decl) : Prop :=
  decl'.name = decl.name ∧ decl.ty.Blurs ρ decl'.ty

namespace Typed.Env

variable {E E' : Env}

theorem Blurs.declare (h : E.Blurs ρ E') {kind : VarKind} {name : String} {ty ty' : Ty}
    (hty : ty.Blurs ρ ty') : (E.declare kind name ty).Blurs ρ (E'.declare kind name ty') :=
  { h with
    vars := by
      intro other
      simp only [Env.declare]
      split_ifs
      · exact .some ⟨rfl, hty⟩
      · exact h.vars other }

theorem Blurs.declareField (h : E.Blurs ρ E') {field : String} {ty ty' : Ty}
    (hty : ty.Blurs ρ ty') : (E.declareField field ty).Blurs ρ (E'.declareField field ty') :=
  { h with
    fields := by
      intro other
      simp only [Env.declareField]
      split_ifs
      · exact .some hty
      · exact h.fields other }

end Typed.Env

/-! ### Contexts -/

/-- The same names in sight, with blurred types, and `N` is no type name. -/
structure Context.Blurs (ρ : String → NameMap Ty) (N : String) (Γ Γ' : Context) : Prop where
  env : Γ.env.Blurs ρ Γ'.env
  varKind : Γ'.varKind = Γ.varKind
  types : ∀ name, Option.Rel (Ty.Blurs ρ) (Γ.scopes.lookupType name) (Γ'.scopes.lookupType name)
  undeclared : Γ'.scopes.lookupType N = none

namespace Context

variable {Γ Γ' Δ : Context} {name : String}

theorem Blurs.enter (h : Γ.Blurs ρ N Γ') : Γ.enter.Blurs ρ N Γ'.enter :=
  { h with varKind := rfl }

theorem Blurs.enterLoop (h : Γ.Blurs ρ N Γ') : Γ.enterLoop.Blurs ρ N Γ'.enterLoop :=
  { h.enter with env := { h.env with inLoop := rfl } }

theorem Blurs.enterFunction (h : Γ.Blurs ρ N Γ') {returns returns' : List Ty}
    (hr : List.Forall₂ (Ty.Blurs ρ) returns returns') :
    (Γ.enterFunction returns).Blurs ρ N (Γ'.enterFunction returns') :=
  { h.enter with env := { h.env with returns := hr, inLoop := rfl } }

/-! ### Names in sight -/

section
variable (h : Γ.Blurs ρ N Γ')
include h

theorem Blurs.lookup_var {ty : Ty} {site : Location} {kind : VarKind}
    (hl : Γ.scopes.lookup name = some (.var ⟨ty, site, kind⟩)) :
    ∃ ty' site', Γ'.scopes.lookup name = some (.var ⟨ty', site', kind⟩) ∧ ty.Blurs ρ ty' := by
  have hrel := h.env.vars name
  rw [env_vars_of_var hl] at hrel
  generalize hfound : Γ'.env.vars name = found at hrel
  cases hrel with
  | some hvar =>
    obtain ⟨⟨ty', site', kind'⟩, hb, rfl⟩ := Option.map_eq_some_iff.mp hfound
    obtain ⟨rfl, hty⟩ := hvar
    exact ⟨ty', site', Scopes.lookup_eq_var_iff.mpr hb, hty⟩

theorem Blurs.var?_eq_none_iff : Γ'.scopes.var? name = none ↔ Γ.scopes.var? name = none := by
  have hrel := h.env.vars name
  simp only [Context.env] at hrel
  generalize Γ.scopes.var? name = found, Γ'.scopes.var? name = found' at hrel ⊢
  cases found with
  | none =>
    cases found' with
    | none => simp
    | some => cases hrel
  | some =>
    cases found' with
    | none => cases hrel
    | some => simp

theorem Blurs.builtin_iff {ty : Ty} :
    Γ'.scopes.lookup name = some (.builtin ty) ↔ Γ.scopes.lookup name = some (.builtin ty) := by
  have hbuiltins : Γ'.scopes.builtins = Γ.scopes.builtins := h.env.builtins
  rw [Scopes.lookup_eq_builtin_iff, Scopes.lookup_eq_builtin_iff, h.var?_eq_none_iff, hbuiltins]

theorem Blurs.library_iff {members : NameMap Ty} :
    Γ'.scopes.lookup name = some (.library members) ↔
      Γ.scopes.lookup name = some (.library members) := by
  have hbuiltins : Γ'.scopes.builtins = Γ.scopes.builtins := h.env.builtins
  rw [Scopes.lookup_eq_library_iff, Scopes.lookup_eq_library_iff, h.var?_eq_none_iff, hbuiltins]

theorem Blurs.builtin {ty : Ty} (hl : Γ.scopes.lookup name = some (.builtin ty)) :
    ty.Blurs ρ ty := by
  obtain ⟨-, hb⟩ := Scopes.lookup_eq_builtin_iff.mp hl
  exact h.env.plain ty (Builtins.mem_types_of_get? hb (by simp [Builtins.typesOf]))

theorem Blurs.member {members : NameMap Ty} {field : String} {ty : Ty}
    (hl : Γ.scopes.lookup name = some (.library members)) (hf : members.lookup field = some ty) :
    ty.Blurs ρ ty := by
  obtain ⟨-, hb⟩ := Scopes.lookup_eq_library_iff.mp hl
  refine h.env.plain ty (Builtins.mem_types_of_get? hb ?_)
  exact List.mem_map.mpr ⟨_, NameMap.mem_of_lookup hf, rfl⟩

end

/-! ### Declarations -/

theorem declare_frame {binding : Binding} (h : (Γ.declare name binding).Yields Δ) :
    Δ.varKind = Γ.varKind ∧ Δ.scopes.types = Γ.scopes.types := by
  rcases declare_yields h with ⟨layer, outer, hin, rfl⟩ | ⟨hin, -, rfl⟩
  · exact ⟨by simp [varKind, Scopes.isToplevel, hin], rfl⟩
  · exact ⟨by simp [varKind, Scopes.isToplevel], rfl⟩

/-- A name that is new, or anywhere but at the toplevel, can be declared. -/
theorem exists_declare (binding : Binding)
    (h : Γ.varKind = .toplevel → Γ.scopes.var? name = none) :
    ∃ Δ, (Γ.declare name binding).Yields Δ := by
  unfold Context.declare Scopes.declare
  cases hin : Γ.scopes.inner with
  | cons layer outer => exact ⟨_, rfl⟩
  | nil =>
    have hnone := h (by simp [varKind, Scopes.isToplevel, hin])
    simp only [Scopes.var?, hin, List.findSome?_nil, Option.none_or] at hnone
    simp only [hnone]
    exact ⟨_, rfl⟩

theorem Blurs.declare (h : Γ.Blurs ρ N Γ') {binding : Binding}
    (hd : (Γ.declare name binding).Yields Δ) (binding' : Binding)
    (hk : binding'.kind = binding.kind) (hty : binding.ty.Blurs ρ binding'.ty) :
    ∃ Δ', (Γ'.declare name binding').Yields Δ' ∧ Δ.Blurs ρ N Δ' := by
  have hnew : Γ'.varKind = .toplevel → Γ'.scopes.var? name = none := by
    intro htop
    have hnone := env_vars_eq_none hd (h.varKind.symm.trans htop)
    exact h.var?_eq_none_iff.mpr (Option.map_eq_none_iff.mp hnone)
  obtain ⟨Δ', hd'⟩ := exists_declare binding' hnew
  obtain ⟨hkind, htypes⟩ := declare_frame hd
  obtain ⟨hkind', htypes'⟩ := declare_frame hd'
  refine ⟨Δ', hd', ?_, ?_, ?_, ?_⟩
  · rw [env_declare hd, env_declare hd', hk]
    exact h.env.declare hty
  · rw [hkind', hkind, h.varKind]
  · intro other
    rw [Scopes.lookupType, Scopes.lookupType, htypes, htypes']
    exact h.types other
  · rw [Scopes.lookupType, htypes']
    exact h.undeclared

theorem Blurs.declareAll {kind : VarKind} {decls decls' : List Typed.Decl} (h : Γ.Blurs ρ N Γ')
    (hdecls : List.Forall₂ (Typed.Decl.Blurs ρ) decls decls')
    (hd : (Context.declareAll kind decls Γ).Yields Δ) :
    ∃ Δ', (Context.declareAll kind decls' Γ').Yields Δ' ∧ Δ.Blurs ρ N Δ' := by
  induction hdecls generalizing Γ Γ' with
  | nil =>
    rw [Context.declareAll, Report.yields_pure] at hd
    exact ⟨Γ', rfl, hd ▸ h⟩
  | @cons decl decl' _ _ hdecl hrest ih =>
    simp only [Context.declareAll, Report.yields_bind] at hd ⊢
    obtain ⟨Γ₁, hd₁, hd⟩ := hd
    obtain ⟨hname, hty⟩ := hdecl
    obtain ⟨Γ₁', hd₁', h₁⟩ := h.declare hd₁ ⟨decl'.ty, decl'.loc, kind⟩ rfl hty
    obtain ⟨Δ', hd', hΔ⟩ := ih h₁ hd
    exact ⟨Δ', ⟨Γ₁', hname ▸ hd₁', hd'⟩, hΔ⟩

theorem Blurs.field_eq_none (h : Γ.Blurs ρ N Γ') {field : String}
    (hnone : Γ.module.fields.lookup field = none) : Γ'.module.fields.lookup field = none := by
  have hrel := h.env.fields field
  simp only [Context.env, hnone, Option.map_none] at hrel
  generalize Γ'.module.fields.lookup field = found at hrel ⊢
  cases found with
  | none => rfl
  | some => cases hrel

theorem Blurs.declareField (h : Γ.Blurs ρ N Γ') {options : Options} {field : String} {ty ty' : Ty}
    {loc : Location} (hty : ty.Blurs ρ ty') (hd : (Γ.declareField options field ty loc).Yields Δ) :
    ∃ Δ', (Γ'.declareField options field ty' loc).Yields Δ' ∧ Δ.Blurs ρ N Δ' := by
  obtain ⟨hallowed, hnone, rfl⟩ := declareField_yields hd
  have hallowed' : ty'.isModuleField options.scalarFields = true := by
    cases hty <;> first | rfl | exact hallowed
  have hd' : (Γ'.declareField options field ty' loc).Yields { Γ' with module :=
      { Γ'.module with fields := Γ'.module.fields.insert field ⟨ty', loc⟩ } } := by
    simp [Context.declareField, ModuleDraft.declareField, h.field_eq_none hnone, hallowed']
  refine ⟨_, hd', ?_, h.varKind, h.types, h.undeclared⟩
  rw [(env_declareField hd).2, (env_declareField hd').2]
  exact h.env.declareField hty

/-- A type name can be declared with any type, and with a blurred type this leads to a blurred
context. -/
theorem Blurs.declareType (h : Γ.Blurs ρ N Γ') {ty : Ty} (ty' : Ty) {loc : Location}
    (hne : name ≠ N) (hd : (Γ.declareType name ty loc).Yields Δ) :
    ∃ Δ', (Γ'.declareType name ty' loc).Yields Δ' ∧ Δ'.scopes.lookupType name = some ty' ∧
      (ty.Blurs ρ ty' → Δ.Blurs ρ N Δ') := by
  obtain ⟨hnone, rfl⟩ := declareType_yields hd
  have hnone' : Γ'.scopes.types.lookup name = none := by
    have hrel := h.types name
    rw [Scopes.lookupType, hnone] at hrel
    generalize hfound : Γ'.scopes.lookupType name = found at hrel
    cases hrel
    exact Option.map_eq_none_iff.mp hfound
  have hd' : (Γ'.declareType name ty' loc).Yields { Γ' with scopes :=
      { Γ'.scopes with types := Γ'.scopes.types.insert name ⟨ty', loc⟩ } } := by
    simp [Context.declareType, Scopes.declareType, hnone']
  refine ⟨_, hd', ?_, fun hty => ⟨h.env, h.varKind, fun other => ?_, ?_⟩⟩
  · simp [Scopes.lookupType, NameMap.lookup_insert]
  · simp only [Scopes.lookupType, NameMap.lookup_insert]
    split_ifs
    · exact .some hty
    · exact h.types other
  · simp only [Scopes.lookupType, NameMap.lookup_insert, if_neg hne.symm]
    exact h.undeclared

theorem Blurs.declareModule (h : Γ.Blurs ρ N Γ') {nameLoc loc : Location}
    (hd : (Γ.declareModule name nameLoc loc).Yields Δ) :
    ∃ Δ', (Γ'.declareModule name nameLoc loc).Yields Δ' ∧ Δ.Blurs ρ N Δ' := by
  obtain ⟨hvar, hd⟩ := declareModule_yields hd
  have hvar' : Γ'.module.var = none := by
    have hmodule := h.env.module
    simpa [Context.env, ModuleDraft.name?, hvar] using hmodule
  have h' : Context.Blurs ρ N { Γ with module := { Γ.module with var := some (name, nameLoc) } }
      { Γ' with module := { Γ'.module with var := some (name, nameLoc) } } :=
    { h with env := { h.env with module := rfl } }
  obtain ⟨Δ', hd', hΔ⟩ := h'.declare hd ⟨.module [], nameLoc, .module⟩ rfl .module
  refine ⟨Δ', ?_, hΔ⟩
  rw [Context.declareModule, hvar']
  exact hd'

end Context

/-! ### Annotations -/

theorem Ty.FieldsBlur.insert {fields fields' : NameMap Ty} {key : String} {ty ty' : Ty}
    (h : FieldsBlur ρ fields fields') (hty : ty.Blurs ρ ty') :
    FieldsBlur ρ (fields.insert key ty) (fields'.insert key ty') := by
  induction fields generalizing fields' with
  | nil =>
    cases h
    exact .cons hty .nil
  | cons entry fields ih =>
    cases h with
    | cons hold h =>
      rw [NameMap.insert, NameMap.insert]
      split_ifs
      · exact .cons hty h
      · exact .cons hold (ih h)

namespace TypeExpr

variable {scopes scopes' : Scopes}

mutual

/-- **Annotations are resolved to blurred types**, with a fault for each replaced part. -/
theorem Edits.resolve
    (hs : ∀ name, Option.Rel (Ty.Blurs ρ) (scopes.lookupType name) (scopes'.lookupType name))
    (hN : scopes'.lookupType N = none) : ∀ {type type' : TypeExpr} {u : List Location}
      {site : Location} {ty : Ty}, type.Edits N u type' → (type.resolve scopes site).Yields ty →
        ∃ ty', type'.resolve scopes' site = ⟨ty', undeclaredAt N u⟩ ∧ ty.Blurs ρ ty'
  | _, _, _, site, ty, .here _, _ => by
    refine ⟨.unknown, ?_, .unknown⟩
    rw [TypeExpr.resolve, hN]
    rfl
  | .name text loc, _, _, site, ty, .atom _, h => by
    rw [TypeExpr.resolve, Report.yields_orUnknown] at h
    have hrel := hs text
    rw [h] at hrel
    generalize hfound : scopes'.lookupType text = found at hrel
    cases hrel with
    | some hty =>
      refine ⟨_, ?_, hty⟩
      rw [TypeExpr.resolve, hfound]
      rfl
  | .nil, _, _, site, ty, .atom _, h | .boolean, _, _, site, ty, .atom _, h
  | .integer, _, _, site, ty, .atom _, h | .float, _, _, site, ty, .atom _, h
  | .string, _, _, site, ty, .atom _, h | .any, _, _, site, ty, .atom _, h => by
    rw [TypeExpr.resolve, Report.yields_pure] at h
    rw [h]
    exact ⟨_, rfl, by constructor⟩
  | .module, _, _, site, ty, .atom _, h => by simp [TypeExpr.resolve] at h
  | .array elem loc, _, _, site, ty, .array he, h => by
    simp only [TypeExpr.resolve, Report.yields_bind, Report.yields_pure] at h
    obtain ⟨elem', h, rfl⟩ := h
    obtain ⟨ty', hr, hb⟩ := Edits.resolve hs hN he h
    refine ⟨_, ?_, .array hb⟩
    rw [TypeExpr.resolve, hr]
    exact congrArg (Report.mk _) (List.append_nil _)
  | .table fields loc, _, _, site, ty, .table hf, h => by
    simp only [TypeExpr.resolve, Report.yields_bind, Report.yields_pure] at h
    obtain ⟨map, h, rfl⟩ := h
    obtain ⟨map', hr, hb, hn⟩ := Edits.resolveFields hs hN hf .nil (by simp [NameMap.keys]) h
    refine ⟨_, ?_, .table hb hn⟩
    rw [TypeExpr.resolve, hr]
    exact congrArg (Report.mk _) (List.append_nil _)
  | .function params returns loc, _, _, site, ty, .function hp hr, h => by
    simp only [TypeExpr.resolve, Report.yields_bind, Report.yields_pure] at h
    obtain ⟨params', h₁, returns', h₂, rfl⟩ := h
    obtain ⟨tys₁, hr₁, hb₁⟩ := Edits.resolveList hs hN hp h₁
    obtain ⟨tys₂, hr₂, hb₂⟩ := Edits.resolveList hs hN hr h₂
    refine ⟨_, ?_, .function hb₁ hb₂⟩
    rw [TypeExpr.resolve, hr₁, undeclaredAt_append]
    simp only [bind, Report.bind, hr₂, pure, Report.pure, List.append_nil]

theorem Edits.resolveList
    (hs : ∀ name, Option.Rel (Ty.Blurs ρ) (scopes.lookupType name) (scopes'.lookupType name))
    (hN : scopes'.lookupType N = none) : ∀ {types types' : List TypeExpr} {u : List Location}
      {site : Location} {tys : List Ty}, EditsEach (TypeExpr.Edits N) u types types' →
        (TypeExpr.resolveList scopes types site).Yields tys →
          ∃ tys', TypeExpr.resolveList scopes' types' site = ⟨tys', undeclaredAt N u⟩ ∧
            List.Forall₂ (Ty.Blurs ρ) tys tys'
  | _, _, _, site, tys, .nil, h => by
    rw [TypeExpr.resolveList, Report.yields_pure] at h
    rw [h]
    exact ⟨[], rfl, .nil⟩
  | _ :: _, _, _, site, tys, .cons ht hts, h => by
    simp only [TypeExpr.resolveList, Report.yields_bind, Report.yields_pure] at h
    obtain ⟨ty, h₁, tys, h₂, rfl⟩ := h
    obtain ⟨ty', hr₁, hb₁⟩ := Edits.resolve hs hN ht h₁
    obtain ⟨tys', hr₂, hb₂⟩ := Edits.resolveList hs hN hts h₂
    refine ⟨_, ?_, .cons hb₁ hb₂⟩
    rw [TypeExpr.resolveList, hr₁, undeclaredAt_append]
    simp only [bind, Report.bind, hr₂, pure, Report.pure, List.append_nil]

theorem Edits.resolveFields
    (hs : ∀ name, Option.Rel (Ty.Blurs ρ) (scopes.lookupType name) (scopes'.lookupType name))
    (hN : scopes'.lookupType N = none) : ∀ {fields fields' : List TypeField} {u : List Location}
      {known known' map : NameMap Ty}, EditsEach (TypeField.Edits N) u fields fields' →
        Ty.FieldsBlur ρ known known' → known'.keys.Nodup →
          (TypeExpr.resolveFields scopes fields known).Yields map →
            ∃ map', TypeExpr.resolveFields scopes' fields' known' = ⟨map', undeclaredAt N u⟩ ∧
              Ty.FieldsBlur ρ map map' ∧ map'.keys.Nodup
  | _, _, _, known, known', map, .nil, hk, hn, h => by
    rw [TypeExpr.resolveFields, Report.yields_pure] at h
    rw [h]
    exact ⟨known', rfl, hk, hn⟩
  | ⟨key, _, _⟩ :: _, _, _, known, known', map, .cons (.field ht) hts, hk, hn, h => by
    simp only [TypeExpr.resolveFields, Report.yields_bind] at h
    obtain ⟨ty, h₁, h₂⟩ := h
    obtain ⟨ty', hr₁, hb₁⟩ := Edits.resolve hs hN ht h₁
    split_ifs at h₂ with hc
    · simp at h₂
    · obtain ⟨map', hr₂, hb₂, hn₂⟩ := Edits.resolveFields hs hN hts (hk.insert hb₁)
        (NameMap.nodup_keys_insert hn) h₂
      have hc' : known'.contains key = false := by
        rw [hk.contains_eq]
        simpa using hc
      refine ⟨map', ?_, hb₂, hn₂⟩
      rw [TypeExpr.resolveFields, hr₁, undeclaredAt_append]
      simp only [bind, Report.bind, hc', Bool.false_eq_true, if_false, hr₂]

end

end TypeExpr

end LuaTyping
