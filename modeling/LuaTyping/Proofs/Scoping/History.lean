import LuaTyping.Scopes
import Mathlib.Data.List.Infix

/-!
# Scopes as a history of calls

What a name stands for can be read off the calls that were made, without any layers.  `depth` counts
the layers that the calls leave open.  A declaration is *in force* after further calls if it was
accepted and its layer has stayed open all the time (`InForce`), and a name stands for its latest
declaration in force (`Latest`), or else for a builtin.

The layers are described level by level: up to each open layer, a look-up finds the latest of the
declarations in force that were made no deeper (`Describes`).  A call changes at most what is found
up to the innermost layer (`Describes.keep`, `describes_declare`), so the description carries over
from call to call (`Follows.next`) and holds after every history (`follows_run`).
-/

namespace LuaTyping

namespace Scopes

/-- A call that can change scopes. -/
inductive Call where
  | enter
  | exit
  | declare (name : String) (binding : Binding)
  | declareType (name : String) (ty : Ty) (loc : Location)

/-- The scopes after a call; a call that is refused has no effect. -/
def call (scopes : Scopes) : Call → Scopes
  | .enter => scopes.enter
  | .exit => scopes.exit
  | .declare name binding =>
    match scopes.declare name binding with
    | .ok next => next
    | .error _ => scopes
  | .declareType name ty loc =>
    match scopes.declareType name ty loc with
    | .ok next => next
    | .error _ => scopes

/-- The scopes after calls, one after another. -/
def run (scopes : Scopes) (calls : List Call) : Scopes :=
  calls.foldl call scopes

/-! ### Histories -/

namespace Call

/-- The number of layers above the bottom after a call, from that before it. -/
def deepen (depth : Nat) : Call → Nat
  | .enter => depth + 1
  | .exit => depth - 1
  | .declare .. | .declareType .. => depth

/-- The variable that a call declares, or tries to, at the bottom, where no layer is open above. -/
def bottomVar (depth : Nat) (call : Call) : List (String × Binding) :=
  match depth, call with
  | 0, .declare name binding => [(name, binding)]
  | _, _ => []

/-- The type name that a call declares. -/
def types : Call → List (String × Declared)
  | .declareType name ty loc => [(name, ⟨ty, loc⟩)]
  | _ => []

end Call

/-- The number of layers that calls leave open above the bottom. -/
def depth (calls : List Call) : Nat :=
  calls.foldl Call.deepen 0

/-- The variables that calls declare, or try to, while only the bottom layer is open. -/
def bottomVars (depth : Nat) : List Call → List (String × Binding)
  | [] => []
  | call :: rest => call.bottomVar depth ++ bottomVars (call.deepen depth) rest

/-- The type names that calls declare, or try to. -/
def typeNames (calls : List Call) : List (String × Declared) :=
  calls.flatMap Call.types

/-- Whether the calls open and close layers in pairs, `depth` of them being open before. -/
def balanced : Nat → List Call → Bool
  | depth, [] => depth == 0
  | depth, .enter :: rest => balanced (depth + 1) rest
  | 0, .exit :: _ => false
  | depth + 1, .exit :: rest => balanced depth rest
  | depth, .declare .. :: rest => balanced depth rest
  | depth, .declareType .. :: rest => balanced depth rest

/-- The layer that is innermost after the first calls stays open during the other calls. -/
def StaysOpen (before after : List Call) : Prop :=
  ∀ part, part <+: after → depth before ≤ depth (before ++ part)

/-- The declaration between the calls was accepted, as it is unless the name is taken at the bottom,
and its layer stays open. -/
structure InForce (before : List Call) (name : String) (binding : Binding) (after : List Call) :
    Prop where
  accepted : depth before = 0 → name ∉ (bottomVars 0 before).map Prod.fst
  isOpen : StaysOpen (before ++ [.declare name binding]) after

/-- Of the declarations of the name, this is the latest in force after the calls. -/
def Latest (calls : List Call) (name : String) (binding : Binding) : Prop :=
  ∃ before after, calls = before ++ .declare name binding :: after ∧
    InForce before name binding after ∧
    ∀ between binding' rest, after = between ++ .declare name binding' :: rest →
      ¬InForce (before ++ .declare name binding :: between) name binding' rest

variable {calls before after : List Call} {call : Call} {name : String} {binding : Binding}
  {level : Nat} {found : Option Binding} {scopes : Scopes}

theorem run_append (calls more : List Call) :
    scopes.run (calls ++ more) = (scopes.run calls).run more :=
  List.foldl_append

theorem run_concat (calls : List Call) (call : Call) :
    scopes.run (calls ++ [call]) = (scopes.run calls).call call :=
  List.foldl_concat ..

theorem depth_concat (calls : List Call) (call : Call) :
    depth (calls ++ [call]) = call.deepen (depth calls) :=
  List.foldl_concat ..

theorem bottomVars_concat (calls : List Call) (call : Call) (start : Nat) :
    bottomVars start (calls ++ [call]) =
      bottomVars start calls ++ call.bottomVar (calls.foldl Call.deepen start) := by
  induction calls generalizing start with
  | nil => simp [bottomVars]
  | cons first rest ih => simp [bottomVars, ih]

theorem typeNames_concat (calls : List Call) (call : Call) :
    typeNames (calls ++ [call]) = typeNames calls ++ call.types := by
  simp [typeNames]

/-! ### Declarations in force -/

theorem StaysOpen.of_concat (h : StaysOpen before (after ++ [call])) : StaysOpen before after :=
  fun part hpart => h part (hpart.trans (List.prefix_append _ _))

theorem StaysOpen.concat (h : StaysOpen before after)
    (hlast : depth before ≤ depth (before ++ (after ++ [call]))) :
    StaysOpen before (after ++ [call]) := by
  intro part hpart
  rcases List.prefix_concat_iff.mp hpart with rfl | hpart
  · exact hlast
  · exact h part hpart

/-- A declaration in force is no deeper than the innermost layer. -/
theorem InForce.depth_le (h : InForce before name binding after) :
    depth before ≤ depth (before ++ .declare name binding :: after) := by
  have hopen := h.isOpen after List.prefix_rfl
  rwa [depth_concat, List.append_assoc] at hopen

/-- A declaration in a list with one more call is that call, or was in the list before. -/
theorem split_concat {item : Call} (h : calls ++ [call] = before ++ item :: after) :
    (before = calls ∧ item = call ∧ after = []) ∨
      ∃ earlier, after = earlier ++ [call] ∧ calls = before ++ item :: earlier := by
  rcases List.eq_nil_or_concat after with rfl | ⟨earlier, last, rfl⟩
  · obtain ⟨rfl, hlast⟩ := List.append_inj' h rfl
    cases hlast
    exact .inl ⟨rfl, rfl, rfl⟩
  · rw [List.concat_eq_append, ← List.cons_append, ← List.append_assoc] at h
    obtain ⟨rfl, hlast⟩ := List.append_inj' h rfl
    cases hlast
    exact .inr ⟨earlier, List.concat_eq_append, rfl⟩

/-- What a look-up in the layers up to a level finds, in terms of the history: the latest of the
declarations in force that were made at these levels. -/
def Describes (calls : List Call) (level : Nat) (name : String) : Option Binding → Prop
  | some binding => ∃ before after, calls = before ++ .declare name binding :: after ∧
      depth before ≤ level ∧ InForce before name binding after ∧
      ∀ between binding' rest, after = between ++ .declare name binding' :: rest →
        depth (before ++ .declare name binding :: between) ≤ level →
          ¬InForce (before ++ .declare name binding :: between) name binding' rest
  | none => ∀ before binding after, calls = before ++ .declare name binding :: after →
      depth before ≤ level → ¬InForce before name binding after

/-- A call that declares nothing at the levels in question changes nothing there. -/
theorem Describes.keep (h : Describes calls level name found)
    (hlevel : level ≤ depth (calls ++ [call]))
    (hnew : ∀ binding, call = .declare name binding → depth calls ≤ level →
      ¬InForce calls name binding []) :
    Describes (calls ++ [call]) level name found := by
  cases found with
  | none =>
    intro before binding after hsplit hdepth hforce
    rcases split_concat hsplit with ⟨rfl, rfl, rfl⟩ | ⟨earlier, rfl, rfl⟩
    · exact hnew binding rfl hdepth hforce
    · exact h before binding earlier rfl hdepth ⟨hforce.accepted, hforce.isOpen.of_concat⟩
  | some binding =>
    obtain ⟨before, after, rfl, hdepth, hforce, hlast⟩ := h
    refine ⟨before, after ++ [call], by simp, hdepth, ⟨hforce.accepted, ?_⟩, ?_⟩
    · refine hforce.isOpen.concat ?_
      have hle := hdepth.trans hlevel
      simpa [depth_concat, Call.deepen] using hle
    · intro between binding' rest hsplit hdepth' hforce'
      rcases split_concat hsplit with ⟨rfl, rfl, rfl⟩ | ⟨earlier, rfl, rfl⟩
      · exact hnew binding' rfl hdepth' hforce'
      · exact hlast between binding' earlier rfl hdepth'
          ⟨hforce'.accepted, hforce'.isOpen.of_concat⟩

/-- A declaration that is accepted is the latest. -/
theorem describes_declare (h : depth calls = 0 → name ∉ (bottomVars 0 calls).map Prod.fst) :
    Describes (calls ++ [.declare name binding]) (depth calls) name (some binding) := by
  refine ⟨calls, [], rfl, le_rfl, ⟨h, ?_⟩, by simp⟩
  intro part hpart
  rw [List.prefix_nil.mp hpart, List.append_nil]

/-- Deeper levels than the innermost have nothing to add. -/
theorem Describes.deeper (h : Describes calls (depth calls) name found)
    (hlevel : depth calls ≤ level) : Describes calls level name found := by
  cases found with
  | none =>
    intro before binding after hsplit _ hforce
    have hle := hforce.depth_le
    rw [← hsplit] at hle
    exact h before binding after hsplit hle hforce
  | some binding =>
    obtain ⟨before, after, hsplit, hdepth, hforce, hlast⟩ := h
    refine ⟨before, after, hsplit, hdepth.trans hlevel, hforce, ?_⟩
    intro between binding' rest hrest _ hforce'
    have hle := hforce'.depth_le
    rw [List.append_assoc, List.cons_append, ← hrest, ← hsplit] at hle
    exact hlast between binding' rest hrest hle hforce'

/-! ### From call to call -/

/-- The scopes are what the history says. -/
structure Follows (builtins : Builtins) (calls : List Call) (scopes : Scopes) : Prop where
  builtins : scopes.builtins = builtins
  depth : scopes.inner.length = depth calls
  toplevel : scopes.toplevel = NameMap.firsts (bottomVars 0 calls)
  types : scopes.types = NameMap.firsts (typeNames calls)
  vars : ∀ layers, layers <:+ scopes.inner → ∀ name,
    Describes calls layers.length name ({ scopes with inner := layers }.var? name)

variable {builtins : Builtins}

theorem follows_start : Follows builtins [] (start builtins) where
  builtins := rfl
  depth := rfl
  toplevel := rfl
  types := rfl
  vars := by
    intro layers hlayers name
    rw [List.suffix_nil.mp hlayers]
    intro before binding after hsplit
    simp at hsplit

theorem bottomVars_of_depth (h : depth calls ≠ 0) :
    bottomVars 0 (calls ++ [call]) = bottomVars 0 calls := by
  rw [bottomVars_concat]
  unfold Call.bottomVar
  split
  · next hdepth => exact absurd hdepth h
  · exact List.append_nil _

theorem var?_cons (scopes : Scopes) (layer : NameMap Binding) (outer : List (NameMap Binding)) :
    { scopes with inner := layer :: outer }.var? name =
      (layer.lookup name).or ({ scopes with inner := outer }.var? name) := by
  unfold var?
  rw [List.findSome?_cons]
  cases layer.lookup name <;> rfl

theorem Follows.enter (h : Follows builtins calls scopes) :
    Follows builtins (calls ++ [.enter]) scopes.enter where
  builtins := h.builtins
  depth := by simp [Scopes.enter, depth_concat, Call.deepen, h.depth]
  toplevel := by simp [Scopes.enter, bottomVars_concat, Call.bottomVar, h.toplevel]
  types := by simp [Scopes.enter, typeNames_concat, Call.types, h.types]
  vars := by
    have hdepth := h.depth
    intro layers hlayers name
    rcases List.suffix_cons_iff.mp hlayers with rfl | hlayers
    · have hold := h.vars _ List.suffix_rfl name
      rw [hdepth] at hold
      refine (hold.deeper ?_).keep ?_ ?_
      · rw [List.length_cons]
        omega
      · rw [depth_concat, List.length_cons, hdepth]
        exact le_rfl
      · simp
    · have hle := hlayers.length_le
      refine (h.vars layers hlayers name).keep ?_ (by simp)
      rw [depth_concat, Call.deepen]
      omega

theorem Follows.exit (h : Follows builtins calls scopes) :
    Follows builtins (calls ++ [.exit]) scopes.exit where
  builtins := h.builtins
  depth := by simp [Scopes.exit, depth_concat, Call.deepen, h.depth]
  toplevel := by simp [Scopes.exit, bottomVars_concat, Call.bottomVar, h.toplevel]
  types := by simp [Scopes.exit, typeNames_concat, Call.types, h.types]
  vars := by
    intro layers hlayers name
    have hle := hlayers.length_le
    refine (h.vars layers (hlayers.trans (List.tail_suffix _)) name).keep ?_ (by simp)
    rw [depth_concat, Call.deepen, ← h.depth]
    simpa [Scopes.exit] using hle

theorem Follows.declareType (h : Follows builtins calls scopes) (ty : Ty) (loc : Location) :
    Follows builtins (calls ++ [.declareType name ty loc])
      (scopes.call (.declareType name ty loc)) := by
  have hvars : ∀ layers, layers <:+ scopes.inner → ∀ other,
      Describes (calls ++ [.declareType name ty loc]) layers.length other
        ({ scopes with inner := layers }.var? other) := by
    intro layers hlayers other
    have hle := hlayers.length_le
    refine (h.vars layers hlayers other).keep ?_ (by simp)
    rw [depth_concat, Call.deepen, ← h.depth]
    exact hle
  have hdepth : scopes.inner.length = Scopes.depth (calls ++ [.declareType name ty loc]) := by
    rw [depth_concat, h.depth]
    rfl
  have htoplevel : scopes.toplevel =
      NameMap.firsts (bottomVars 0 (calls ++ [.declareType name ty loc])) := by
    simp [bottomVars_concat, Call.bottomVar, h.toplevel]
  have htypes := typeNames_concat calls (.declareType name ty loc)
  cases hfound : scopes.types.lookup name with
  | some previous =>
    have hcall : scopes.call (.declareType name ty loc) = scopes := by
      simp [Scopes.call, Scopes.declareType, hfound]
    rw [hcall]
    refine ⟨h.builtins, hdepth, htoplevel, ?_, hvars⟩
    rw [h.types] at hfound ⊢
    rw [htypes]
    exact (NameMap.firsts_concat_of_some hfound _).symm
  | none =>
    have hcall : scopes.call (.declareType name ty loc) =
        { scopes with types := scopes.types.insert name ⟨ty, loc⟩ } := by
      simp [Scopes.call, Scopes.declareType, hfound]
    rw [hcall]
    refine ⟨h.builtins, hdepth, htoplevel, ?_, hvars⟩
    rw [h.types] at hfound
    rw [htypes, Call.types, NameMap.firsts_concat_of_none hfound, ← h.types]

/-- A declaration above the bottom. -/
theorem Follows.declareInner (h : Follows builtins calls scopes) {layer : NameMap Binding}
    {outer : List (NameMap Binding)} (hinner : scopes.inner = layer :: outer) :
    Follows builtins (calls ++ [.declare name binding])
      { scopes with inner := layer.insert name binding :: outer } := by
  have hlength : outer.length + 1 = Scopes.depth calls := by
    rw [← h.depth, hinner]
    rfl
  have hdepth : Scopes.depth (calls ++ [.declare name binding]) = Scopes.depth calls :=
    depth_concat ..
  refine ⟨h.builtins, hlength.trans hdepth.symm, ?_, ?_, fun layers hlayers other => ?_⟩
  · rw [bottomVars_of_depth (by omega), h.toplevel]
  · rw [typeNames_concat, h.types]
    exact congrArg _ (List.append_nil _).symm
  rcases List.suffix_cons_iff.mp hlayers with rfl | hlayers
  · -- up to the innermost layer the new declaration is found, and all other names are as before
    rw [var?_cons, NameMap.lookup_insert, List.length_cons, hlength]
    by_cases hname : other = name
    · rw [if_pos hname, hname]
      exact describes_declare (by omega)
    · rw [if_neg hname, ← var?_cons, ← hinner, ← h.depth]
      refine (h.vars scopes.inner List.suffix_rfl other).keep ?_ ?_
      · rw [hdepth, h.depth]
      · rintro _ heq
        cases heq
        exact absurd rfl hname
  · have hle := hlayers.length_le
    refine (h.vars layers ?_ other).keep (by omega) fun _ _ hdeep => ?_
    · rw [hinner]
      exact hlayers.trans (List.suffix_cons _ _)
    · omega

/-- A declaration at the bottom. -/
theorem Follows.declareBottom (h : Follows builtins calls scopes) (hinner : scopes.inner = []) :
    Follows builtins (calls ++ [.declare name binding]) (scopes.call (.declare name binding)) := by
  have hzero : Scopes.depth calls = 0 := by
    rw [← h.depth, hinner]
    rfl
  have hdepth : Scopes.depth (calls ++ [.declare name binding]) = 0 :=
    (depth_concat ..).trans hzero
  have hvars : bottomVars 0 (calls ++ [.declare name binding]) =
      bottomVars 0 calls ++ [(name, binding)] := by
    rw [bottomVars_concat, show calls.foldl Call.deepen 0 = 0 from hzero]
    rfl
  have htypes : scopes.types = NameMap.firsts (typeNames (calls ++ [.declare name binding])) := by
    rw [typeNames_concat, h.types]
    exact congrArg _ (List.append_nil _).symm
  have hmem : name ∈ (bottomVars 0 calls).map Prod.fst ↔ scopes.toplevel.lookup name ≠ none := by
    rw [← NameMap.mem_keys_firsts, ← h.toplevel, ne_eq, NameMap.lookup_eq_none_iff, not_not]
  cases hfound : scopes.toplevel.lookup name with
  | some previous =>
    have hcall : scopes.call (.declare name binding) = scopes := by
      simp [Scopes.call, Scopes.declare, hinner, hfound]
    rw [hcall]
    refine ⟨h.builtins, by rw [hdepth, hinner]; rfl, ?_, htypes, fun layers hlayers other => ?_⟩
    · rw [h.toplevel] at hfound ⊢
      rw [hvars, NameMap.firsts_concat_of_some hfound]
    · refine (h.vars layers hlayers other).keep ?_ ?_
      · rw [hinner] at hlayers
        rw [hdepth, List.suffix_nil.mp hlayers]
        exact le_rfl
      · rintro _ heq _ hforce
        cases heq
        exact hforce.accepted hzero (hmem.mpr (by rw [hfound]; simp))
  | none =>
    have hcall : scopes.call (.declare name binding) =
        { scopes with toplevel := scopes.toplevel.insert name binding } := by
      simp [Scopes.call, Scopes.declare, hinner, hfound]
    rw [hcall]
    refine ⟨h.builtins, by rw [hdepth]; exact congrArg _ hinner, ?_, htypes,
      fun layers hlayers other => ?_⟩
    · rw [h.toplevel] at hfound
      rw [hvars, NameMap.firsts_concat_of_none hfound, ← h.toplevel]
    · obtain rfl : layers = [] := List.suffix_nil.mp (hinner ▸ hlayers)
      have hfind : { scopes with inner := [], toplevel := scopes.toplevel.insert name binding }.var?
          other = if other = name then some binding else { scopes with inner := [] }.var? other :=
        NameMap.lookup_insert ..
      rw [hfind]
      by_cases hname : other = name
      · rw [if_pos hname, hname, List.length_nil, ← hzero]
        exact describes_declare fun _ => by rw [hmem, hfound]; simp
      · rw [if_neg hname]
        refine (h.vars [] List.nil_suffix other).keep (Nat.zero_le _) ?_
        rintro _ heq
        cases heq
        exact absurd rfl hname

/-- **One call.** -/
theorem Follows.next (h : Follows builtins calls scopes) (call : Call) :
    Follows builtins (calls ++ [call]) (scopes.call call) := by
  cases call with
  | enter => exact h.enter
  | exit => exact h.exit
  | declareType name ty loc => exact h.declareType ty loc
  | declare name binding =>
    cases hinner : scopes.inner with
    | nil => exact h.declareBottom hinner
    | cons layer outer =>
      have hcall : scopes.call (.declare name binding) =
          { scopes with inner := layer.insert name binding :: outer } := by
        simp [Scopes.call, Scopes.declare, hinner]
      rw [hcall]
      exact h.declareInner hinner

/-- **Any history.** -/
theorem follows_run (builtins : Builtins) (calls : List Call) :
    Follows builtins calls ((start builtins).run calls) := by
  induction calls using List.reverseRecOn with
  | nil => exact follows_start
  | append_singleton calls call ih =>
    rw [run_concat]
    exact ih.next call

/-! ### Look-ups -/

/-- Of two places in a list, the one is the other, or comes later. -/
theorem split_trichotomy {item item' : Call} {before' after' : List Call}
    (h : before ++ item :: after = before' ++ item' :: after') :
    item = item' ∨
      (∃ between, before' = before ++ item :: between ∧ after = between ++ item' :: after') ∨
      ∃ between, before = before' ++ item' :: between ∧ after' = between ++ item :: after := by
  rcases List.append_eq_append_iff.mp h with ⟨between, hbefore, hafter⟩ | ⟨between, hbefore, hafter⟩
  · cases between with
    | nil =>
      cases hafter
      exact .inl rfl
    | cons first between =>
      cases hafter
      exact .inr (.inl ⟨between, hbefore, rfl⟩)
  · cases between with
    | nil =>
      cases hafter
      exact .inl rfl
    | cons first between =>
      cases hafter
      exact .inr (.inr ⟨between, hbefore, rfl⟩)

theorem Latest.unique {binding' : Binding} (h : Latest calls name binding)
    (h' : Latest calls name binding') : binding = binding' := by
  obtain ⟨before, after, rfl, hforce, hlast⟩ := h
  obtain ⟨before', after', hsplit, hforce', hlast'⟩ := h'
  rcases split_trichotomy hsplit with heq | ⟨between, rfl, rfl⟩ | ⟨between, rfl, rfl⟩
  · cases heq
    rfl
  · exact absurd hforce' (hlast between binding' after' rfl)
  · exact absurd hforce (hlast' between binding after rfl)

/-- A name is found as a variable exactly if a declaration of it is in force. -/
theorem var?_run_eq_some_iff (builtins : Builtins) (calls : List Call) (name : String)
    (binding : Binding) :
    ((start builtins).run calls).var? name = some binding ↔ Latest calls name binding := by
  have hfollows := follows_run builtins calls
  have hdescribes : Describes calls (depth calls) name (((start builtins).run calls).var? name) := by
    rw [← hfollows.depth]
    exact hfollows.vars _ List.suffix_rfl name
  generalize ((start builtins).run calls).var? name = found at hdescribes
  cases found with
  | none =>
    refine iff_of_false (by simp) ?_
    rintro ⟨before, after, hsplit, hforce, -⟩
    have hle := hforce.depth_le
    rw [← hsplit] at hle
    exact hdescribes before binding after hsplit hle hforce
  | some found =>
    obtain ⟨before, after, hsplit, -, hforce, hlast⟩ := hdescribes
    have hlatest : Latest calls name found := by
      refine ⟨before, after, hsplit, hforce, fun between binding' rest hrest hforce' => ?_⟩
      have hle := hforce'.depth_le
      rw [List.append_assoc, List.cons_append, ← hrest, ← hsplit] at hle
      exact hlast between binding' rest hrest hle hforce'
    constructor
    · intro heq
      cases heq
      exact hlatest
    · intro h
      rw [h.unique hlatest]

/-! ### Layers that are closed again -/

/-- Calls that close what they open leave the layers below the innermost one alone. -/
theorem run_of_balanced (scopes : Scopes) {inside : List Call} (upper : List (NameMap Binding))
    {base : List (NameMap Binding)} {opened : Nat} (h : balanced opened inside = true)
    (hupper : upper.length = opened + 1) (hinner : scopes.inner = upper ++ base) :
    ∃ layer, (scopes.run inside).inner = layer :: base ∧
      (scopes.run inside).toplevel = scopes.toplevel := by
  induction inside generalizing scopes upper opened with
  | nil =>
    rw [balanced, beq_iff_eq] at h
    rw [h] at hupper
    obtain ⟨layer, rfl⟩ := List.length_eq_one_iff.mp hupper
    exact ⟨layer, hinner, rfl⟩
  | cons call rest ih =>
    obtain ⟨layer, upper, rfl⟩ := List.exists_cons_of_length_eq_add_one hupper
    cases call with
    | enter =>
      rw [balanced] at h
      exact ih scopes.enter ([] :: layer :: upper) h (by simpa using hupper) (congrArg _ hinner)
    | exit =>
      cases opened with
      | zero => simp [balanced] at h
      | succ opened =>
        rw [balanced] at h
        exact ih scopes.exit upper h (by simpa using hupper) (congrArg List.tail hinner)
    | declare name binding =>
      rw [balanced] at h
      have hcall : scopes.call (.declare name binding) =
          { scopes with inner := (layer.insert name binding :: upper) ++ base } := by
        simp [call, Scopes.declare, hinner]
      obtain ⟨layer', hlayer', htop⟩ := ih (scopes.call (.declare name binding))
        (layer.insert name binding :: upper) h hupper (by rw [hcall])
      exact ⟨layer', hlayer', htop.trans (by rw [hcall])⟩
    | declareType name ty loc =>
      rw [balanced] at h
      have hsame : (scopes.call (.declareType name ty loc)).inner = scopes.inner ∧
          (scopes.call (.declareType name ty loc)).toplevel = scopes.toplevel := by
        cases hfound : scopes.types.lookup name <;> simp [call, Scopes.declareType, hfound]
      obtain ⟨layer', hlayer', htop⟩ := ih (scopes.call (.declareType name ty loc))
        (layer :: upper) h hupper (hsame.1.trans hinner)
      exact ⟨layer', hlayer', htop.trans hsame.2⟩

theorem toplevel_prefix_call (scopes : Scopes) (call : Call) :
    scopes.toplevel <+: (scopes.call call).toplevel := by
  cases call with
  | enter | exit => exact List.prefix_rfl
  | declareType name ty loc =>
    cases hfound : scopes.types.lookup name <;> simp [Scopes.call, Scopes.declareType, hfound]
  | declare name binding =>
    cases hinner : scopes.inner with
    | cons layer outer => simp [Scopes.call, Scopes.declare, hinner]
    | nil =>
      cases hfound : scopes.toplevel.lookup name with
      | some previous => simp [Scopes.call, Scopes.declare, hinner, hfound]
      | none => simp [Scopes.call, Scopes.declare, hinner, hfound, NameMap.insert_eq_append hfound]

theorem toplevel_prefix_run (scopes : Scopes) (calls : List Call) :
    scopes.toplevel <+: (scopes.run calls).toplevel := by
  induction calls generalizing scopes with
  | nil => exact List.prefix_rfl
  | cons call rest ih => exact (toplevel_prefix_call scopes call).trans (ih (scopes.call call))

/-- What a name stands for that no variable has. -/
def builtin? (builtins : Builtins) (name : String) : Option Resolved :=
  (builtins.get? name).map fun
    | .function ty => .builtin ty
    | .library members => .library members

/-- **Scopes are lexical scoping.**  After any calls, starting with nothing declared:

* a name stands for its latest declaration in force, or else for a builtin;
* a variable is refused exactly if only the bottom layer is open and the name was declared there,
  with the first of these declarations;
* a type name is refused exactly if it was declared, with the place where it was declared first, and
  it stands for the type it was declared as first;
* a call that is refused changes nothing;
* the toplevel lists the first declaration at the bottom for each name, in order, and further calls
  only add to it;
* a layer that is opened and closed again leaves all layers as they were. -/
theorem run_lexical (builtins : Builtins) (calls : List Call) :
    let scopes := (start builtins).run calls
    (∀ name binding, Latest calls name binding → scopes.lookup name = some (.var binding)) ∧
    (∀ name, (∀ binding, ¬Latest calls name binding) →
      scopes.lookup name = builtin? builtins name) ∧
    (∀ name binding previous, scopes.declare name binding = .error previous ↔
      depth calls = 0 ∧ (bottomVars 0 calls).lookup name = some previous) ∧
    (∀ name ty loc previous, scopes.declareType name ty loc = .error previous ↔
      ((typeNames calls).lookup name).map (·.loc) = some previous) ∧
    (∀ name, scopes.lookupType name = ((typeNames calls).lookup name).map (·.ty)) ∧
    (∀ name binding previous, scopes.declare name binding = .error previous →
      (start builtins).run (calls ++ [.declare name binding]) = scopes) ∧
    (∀ name ty loc previous, scopes.declareType name ty loc = .error previous →
      (start builtins).run (calls ++ [.declareType name ty loc]) = scopes) ∧
    scopes.toplevel = NameMap.firsts (bottomVars 0 calls) ∧
    (∀ more, scopes.toplevel <+: ((start builtins).run (calls ++ more)).toplevel) ∧
    ∀ inside, balanced 0 inside = true →
      let restored := (start builtins).run (calls ++ .enter :: (inside ++ [.exit]))
      restored.inner = scopes.inner ∧ restored.toplevel = scopes.toplevel := by
  intro scopes
  have hfollows : Follows builtins calls scopes := follows_run builtins calls
  refine ⟨?_, ?_, ?_, ?_, ?_, ?_, ?_, hfollows.toplevel, ?_, ?_⟩
  · intro name binding hlatest
    rw [Scopes.lookup, (var?_run_eq_some_iff builtins calls name binding).mpr hlatest]
  · intro name hnone
    have hvar : scopes.var? name = none := by
      refine Option.eq_none_iff_forall_ne_some.mpr fun binding hbinding => ?_
      exact hnone binding ((var?_run_eq_some_iff builtins calls name binding).mp hbinding)
    rw [Scopes.lookup, hvar, hfollows.builtins, builtin?]
    rcases builtins.get? name with - | (ty | members) <;> rfl
  · intro name binding previous
    rw [← NameMap.lookup_firsts, ← hfollows.toplevel, ← hfollows.depth]
    cases hinner : scopes.inner with
    | cons layer outer => simp [Scopes.declare, hinner]
    | nil =>
      cases hfound : scopes.toplevel.lookup name <;> simp [Scopes.declare, hinner, hfound]
  · intro name ty loc previous
    rw [← NameMap.lookup_firsts, ← hfollows.types]
    cases hfound : scopes.types.lookup name <;> simp [Scopes.declareType, hfound]
  · intro name
    rw [← NameMap.lookup_firsts, ← hfollows.types, Scopes.lookupType]
  · intro name binding previous herror
    rw [run_concat]
    simp only [Scopes.call]
    rw [show ((start builtins).run calls).declare name binding = _ from herror]
  · intro name ty loc previous herror
    rw [run_concat]
    simp only [Scopes.call]
    rw [show ((start builtins).run calls).declareType name ty loc = _ from herror]
  · intro more
    rw [run_append]
    exact toplevel_prefix_run scopes more
  · intro inside hinside restored
    obtain ⟨layer, hinner, htoplevel⟩ :=
      run_of_balanced scopes.enter [[]] hinside rfl rfl
    have hrestored : restored = (scopes.enter.run inside).exit := by
      have hopened : restored = scopes.enter.run (inside ++ [.exit]) :=
        run_append calls (.enter :: (inside ++ [.exit]))
      rw [hopened, run_concat]
      rfl
    rw [hrestored]
    exact ⟨congrArg List.tail hinner, htoplevel⟩

/-- A variable that is shadowed and refused in turn. -/
theorem shadowing_lexical :
    let x (line : UInt64) : Binding := ⟨.integer, .lineCol line 1, .inner⟩
    let calls : List Call := [.exit, .declare "x" (x 1), .enter, .declare "x" (x 2)]
    ((start .standard).run calls).lookup "x" = some (.var (x 2)) ∧
      ((start .standard).run (calls ++ [.exit])).declare "x" (x 3) = .error (x 1) := by
  intro x calls
  have hlatest : Latest calls "x" (x 2) := by
    refine ⟨[.exit, .declare "x" (x 1), .enter], [], rfl, ⟨?_, fun part hpart => ?_⟩, by simp⟩
    · simp [depth, Call.deepen]
    · rw [List.prefix_nil.mp hpart, List.append_nil]
  obtain ⟨hlookup, -⟩ := run_lexical .standard calls
  obtain ⟨-, -, hrefused, -⟩ := run_lexical .standard (calls ++ [.exit])
  exact ⟨hlookup "x" (x 2) hlatest, (hrefused "x" (x 3) (x 1)).mpr ⟨rfl, rfl⟩⟩

end Scopes

end LuaTyping
