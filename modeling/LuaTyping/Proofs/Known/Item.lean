import LuaTyping.Proofs.Place.Item

/-!
# Known types in checked items

That a type is known is a rule about places that every proper context admits, so `unknown` stands
nowhere in an item about which nothing wrong is found (`Item.check_known`), nor in the items of a
program (`checkItems_known`).
-/

namespace LuaTyping

variable {Γ Δ : Context} {options : Options}

theorem Context.Proper.admits_known (hΓ : Γ.Proper true) :
    Γ.Admits true fun place => place.ty.proper true = true where
  proper := hΓ
  ofProper := fun _ h _ => h
  paren := fun _ _ h => h
  moduleVar := fun _ _ _ _ _ => rfl
  target := fun _ _ hl hk => hΓ.ty_of_toplevel hl hk

namespace Source

/-- **No `unknown` in an item.** -/
theorem Item.check_known (hΓ : Γ.Proper true) (hk : Γ.varKind = .toplevel) {item : Item}
    {t : Option Typed.Item} (h : (item.check options Γ).Yields (t, Δ)) :
    ∀ typed ∈ t, Known typed.types := by
  intro typed htyped
  rw [← typed.map_ty_places, Known.map_iff]
  cases hm : item.moduleDecl? with
  | none =>
    have hΔ := (Item.check_context_proper hΓ hk h).1
    exact Item.check_places hΓ.admits_known hΔ.admits_known hm h typed htyped
  | some decl =>
    obtain ⟨name, nameLoc, initLoc, loc, rfl⟩ := Item.eq_of_moduleDecl hm h
    rw [Item.check_moduleDecl h] at htyped
    cases htyped
    rw [Typed.Item.places_moduleDecl, List.forall_mem_cons, List.forall_mem_singleton]
    exact ⟨rfl, rfl⟩

/-- **No `unknown` in the items of a program.** -/
theorem checkItems_known {items : List Item} {Γ Δ : Context} {typed : List Typed.Item}
    (hΓ : Γ.Proper true) (hk : Γ.varKind = .toplevel)
    (h : (checkItems options Γ items).Yields (typed, Δ)) : ∀ item ∈ typed, Known item.types := by
  induction items generalizing Γ typed with
  | nil =>
    simp only [checkItems, Report.yields_pure, Prod.mk.injEq] at h
    simp [h.1]
  | cons item rest ih =>
    simp only [checkItems, Report.yields_bind, Report.yields_pure, Prod.mk.injEq] at h
    obtain ⟨_, -, ⟨t, Γ'⟩, ht, ⟨ts, Δ'⟩, hts, rfl, rfl⟩ := h
    obtain ⟨hΓ', hk'⟩ := Item.check_context_proper hΓ hk ht
    rw [List.forall_mem_append]
    refine ⟨fun found hfound => ?_, ih hΓ' hk' hts⟩
    exact Item.check_known hΓ hk ht found (Option.mem_toList.mp hfound)

end Source

end LuaTyping
