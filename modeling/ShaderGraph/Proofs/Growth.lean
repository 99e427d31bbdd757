/-
  ShaderGraph.Proofs.Growth — a graph that is built keeps the variables it has.

  Variables are only added. One that is there may become an output of its stage, and when
  the technique is finished it gets another condition; nothing else of it changes
  (`Arena.Keeps`). So a handle stays good, and `Stored` says that every handle of the
  interface and of the declarations is: `Stored.resolves` for what resolving does, and
  `stored_of_reach` for every graph.
-/

import ShaderGraph.Proofs.Drafting
import ShaderGraph.Proofs.Settling

namespace ShaderGraph

open Resolution (StoresGlobal Resolves Sized globalVariable raiseInputs)

/-! ## What is kept of a variable -/

/-- All of a variable that no later step changes. -/
def Variable.core (v : Variable) : Variable := { v with isOutput := false, condition := none }

theorem Variable.core_eq_iff {v w : Variable} : v.core = w.core ↔
    v.type = w.type ∧ v.name = w.name ∧ v.origin = w.origin ∧ v.multiplicity = w.multiplicity ∧
      v.defaultValue = w.defaultValue ∧ v.sizeDefine = w.sizeDefine := by
  simp [core]

theorem Variable.name_of_core {v w : Variable} (h : v.core = w.core) : v.name = w.name :=
  (core_eq_iff.mp h).2.1

namespace Arena

def Keeps (a b : Arena) : Prop :=
  ∀ id v, a.get? id = some v → ∃ w, b.get? id = some w ∧ w.core = v.core

theorem Keeps.refl (a : Arena) : a.Keeps a := fun _ v hv => ⟨v, hv, rfl⟩

theorem Keeps.trans {a b c : Arena} (hab : a.Keeps b) (hbc : b.Keeps c) : a.Keeps c := by
  intro id v hv
  obtain ⟨w, hw, hwv⟩ := hab id v hv
  obtain ⟨x, hx, hxw⟩ := hbc id w hw
  exact ⟨x, hx, hxw.trans hwv⟩

/-- A handle stays good. -/
theorem Keeps.lt {a b : Arena} (h : a.Keeps b) {id : VarId} (hid : id.index < a.size) :
    id.index < b.size := by
  obtain ⟨v, hv⟩ := exists_get? hid
  obtain ⟨w, hw, -⟩ := h id v hv
  exact lt_of_get? hw

theorem keeps_add (a : Arena) (v : Variable) : a.Keeps (a.add v) :=
  fun _ w hw => ⟨w, get?_add_of_get? hw v, rfl⟩

theorem keeps_raiseInputs (node : Node) (name : String) (a : Arena) :
    a.Keeps (raiseInputs node name a) := by
  intro id v hv
  rcases Resolution.get?_raiseInputs node name hv with h | h
  · exact ⟨v, h, rfl⟩
  · exact ⟨v.raised, h, rfl⟩

end Arena

theorem Technique.keeps_finish (t : Technique) : t.arena.Keeps t.finish.arena := by
  intro id v hv
  obtain ⟨c, hc⟩ := Technique.finish_get? hv
  exact ⟨_, hc, rfl⟩

/-- What is true of every variable whatever its condition is, is true of the finished ones. -/
theorem Technique.every_finish {t : Technique} {P : Variable → Prop} (h : t.arena.Every P)
    (hc : ∀ v c, P (v.withCondition c) → P v) : t.finish.arena.Every P := by
  intro id v hv
  obtain ⟨c, hold⟩ := Arena.exists_of_unconditional t.finish_arena.symm hv
  exact hc v c (h id _ hold)

/-! ## Handles -/

def Interface.ids (i : Interface) : List VarId :=
  i.attributes ++ i.vertexUniforms ++ i.fragmentUniforms ++ i.varyings ++ i.vertexGlobal.toList ++
    i.fragmentGlobals

/-- Every handle that a technique has outside its nodes is one of its arena, and its globals are
globals. -/
structure Stored (t : Technique) : Prop where
  interface : ∀ id ∈ t.interface.ids, id.index < t.arena.size
  declarations : ∀ d ∈ t.registry.entries, d.id.index < t.arena.size
  globals : ∀ id ∈ t.interface.globals, ∃ v, t.arena.get? id = some v ∧
    v.core = (globalVariable v.name).core

namespace Stored

variable {t t' : Technique}

/-- Only the declarations, the interface and the kept part of the arena count. -/
theorem keep (h : Stored t) (hk : t.arena.Keeps t'.arena) (hregistry : t'.registry = t.registry)
    (hinterface : t'.interface = t.interface) : Stored t' := by
  refine ⟨?_, ?_, ?_⟩
  · rw [hinterface]
    exact fun id hid => hk.lt (h.interface id hid)
  · rw [hregistry]
    exact fun d hd => hk.lt (h.declarations d hd)
  · rw [hinterface]
    intro id hid
    obtain ⟨v, hv, hcore⟩ := h.globals id hid
    obtain ⟨w, hw, hwv⟩ := hk id v hv
    refine ⟨w, hw, ?_⟩
    show w.core = (globalVariable w.core.name).core
    rw [hwv]
    exact hcore

/-- A handle is listed that is one of the arena, and is a global if it is listed as one. -/
theorem list (h : Stored t) {interface : Interface} {id : VarId} (hlt : id.index < t.arena.size)
    (hids : ∀ x ∈ interface.ids, x ∈ t.interface.ids ∨ x = id)
    (hglobals : interface.globals = t.interface.globals) : Stored (t.withInterface interface) := by
  refine ⟨?_, h.declarations, ?_⟩
  · intro x hx
    rcases hids x hx with hx | rfl
    · exact h.interface x hx
    · exact hlt
  · show ∀ x ∈ interface.globals, _
    rw [hglobals]
    exact h.globals

theorem addVariable (h : Stored t) (v : Variable) : Stored (t.addVariable v) :=
  h.keep (Arena.keeps_add t.arena v) rfl rfl

theorem offer (h : Stored t) {key : DeclKey} {v : Variable} {consumer : Consumer} {o : Offered}
    (ho : o = t.offer key v consumer) :
    Stored (t.afterOffer o) ∧ t.arena.Keeps o.arena ∧ o.id.index < o.arena.size := by
  unfold Technique.offer at ho
  rcases Registry.offer_cases t.registry t.arena key v consumer.name with
    ⟨d, hd, -, hcase⟩ | ⟨-, hcase⟩
  · rw [hcase] at ho
    subst ho
    refine ⟨⟨h.interface, fun e he => ?_, h.globals⟩, Arena.Keeps.refl _, h.declarations d hd⟩
    obtain ⟨d', hd', -, hid⟩ := Registry.mem_addConsumer he
    rw [← hid]
    exact h.declarations d' hd'
  · rw [hcase] at ho
    subst ho
    have hnext : t.arena.nextId.index < (t.arena.add v).size := by
      rw [Arena.size_add]
      exact Nat.lt_succ_self _
    obtain ⟨hinterface, hdeclarations, hglobals⟩ := h.addVariable v
    refine ⟨⟨hinterface, fun e he => ?_, hglobals⟩, Arena.keeps_add _ v, hnext⟩
    rcases Registry.mem_addDeclaration.mp he with he | rfl
    · exact hdeclarations e he
    · exact hnext

/-- What storing a global gives is the global, whether it was there already or not. -/
theorem storesGlobal (h : Stored t) {name : String} {stage : Stage} {id : VarId}
    (hs : StoresGlobal (globalVariable name) stage t id t') :
    Stored t' ∧ t.arena.Keeps t'.arena ∧
      ∃ v, t'.arena.get? id = some v ∧ v.core = (globalVariable name).core := by
  have found : ∀ id ∈ t.interface.globals, (t.arena.read id).name = name →
      Stored t ∧ t.arena.Keeps t.arena ∧
        ∃ v, t.arena.get? id = some v ∧ v.core = (globalVariable name).core := by
    intro id hid hname
    obtain ⟨v, hv, hcore⟩ := h.globals id hid
    rw [Arena.read_of_get? hv] at hname
    rw [hname] at hcore
    exact ⟨h, Arena.Keeps.refl _, v, hv, hcore⟩
  have hv : (t.addVariable (globalVariable name).raised).arena.get? t.arena.nextId =
      some (globalVariable name).raised := Arena.get?_add_nextId _ _
  have new : ∀ interface : Interface,
      (∀ x ∈ interface.ids, x ∈ t.interface.ids ∨ x = t.arena.nextId) →
      (∀ x ∈ interface.globals, x ∈ t.interface.globals ∨ x = t.arena.nextId) →
      Stored ((t.addVariable (globalVariable name).raised).withInterface interface) := by
    intro interface hids hglobals
    obtain ⟨hinterface, hdeclarations, hold⟩ := h.addVariable (globalVariable name).raised
    refine ⟨fun x hx => ?_, hdeclarations, fun x hx => ?_⟩
    · rcases hids x hx with hx | rfl
      · exact hinterface x hx
      · exact Arena.lt_of_get? hv
    · rcases hglobals x hx with hx | rfl
      · exact hold x hx
      · exact ⟨_, hv, rfl⟩
  have hkeeps := Arena.keeps_add t.arena (globalVariable name).raised
  cases hs with
  | vertexFound hg hname => exact found id (List.mem_append_left _ (by simp [hg])) hname
  | fragmentFound hg =>
    have hname := List.find?_some hg
    simp only [beq_iff_eq] at hname
    exact found id (List.mem_append_right _ (List.mem_of_find?_eq_some hg)) hname
  | vertexNew hg =>
    refine ⟨new _ ?_ ?_, hkeeps, _, hv, rfl⟩
    · intro x hx
      simp only [Interface.ids, List.mem_append, Option.toList_some, List.mem_singleton] at hx ⊢
      tauto
    · intro x hx
      simp only [Interface.globals, List.mem_append, Option.toList_some,
        List.mem_singleton] at hx ⊢
      tauto
  | fragmentNew hg =>
    refine ⟨new _ ?_ ?_, hkeeps, _, hv, rfl⟩
    · intro x hx
      simp only [Interface.ids, List.mem_append, List.mem_singleton] at hx ⊢
      tauto
    · intro x hx
      simp only [Interface.globals, List.mem_append, List.mem_singleton] at hx ⊢
      tauto
  | other _ _ =>
    exact ⟨new t.interface (fun x hx => Or.inl hx) fun x hx => Or.inl hx, hkeeps, _, hv, rfl⟩

end Stored

/-! ## Resolving -/

theorem mem_ids_listAttribute {i : Interface} {o : Offered} {x : VarId}
    (h : x ∈ (Resolution.Interface.listAttribute i o).ids) : x ∈ i.ids ∨ x = o.id := by
  unfold Resolution.Interface.listAttribute at h
  split at h
  · simp only [Interface.ids, List.mem_append, List.mem_singleton] at h ⊢
    tauto
  · exact Or.inl h

theorem mem_ids_listVarying {i : Interface} {o : Offered} {x : VarId}
    (h : x ∈ (Resolution.Interface.listVarying i o).ids) : x ∈ i.ids ∨ x = o.id := by
  unfold Resolution.Interface.listVarying at h
  split at h
  · simp only [Interface.ids, List.mem_append, List.mem_singleton] at h ⊢
    tauto
  · exact Or.inl h

theorem mem_ids_listUniform {i : Interface} {stage : Stage} {id x : VarId}
    (h : x ∈ (Resolution.Interface.listUniform i stage id).ids) : x ∈ i.ids ∨ x = id := by
  cases stage <;>
    simp only [Resolution.Interface.listUniform, Interface.ids, List.mem_append,
      mem_addOnce] at h ⊢ <;> tauto

/-- Whichever way a reference is found, the technique keeps what it has, and the handle is one of
its arena. -/
theorem Stored.resolves {catalog : Catalog} {reference : Reference} {consumer : Consumer}
    {t t' : Technique} {left left' : Variable} {id : VarId} (h : Stored t)
    (hr : Resolves catalog reference consumer t left id t' left') :
    Stored t' ∧ t.arena.Keeps t'.arena ∧ id.index < t'.arena.size := by
  cases hr with
  | global _ hs =>
    obtain ⟨hst, hk, v, hv, -⟩ := h.storesGlobal hs
    exact ⟨hst, hk, Arena.lt_of_get? hv⟩
  | vertexAttribute _ _ ho =>
    obtain ⟨hst, hk, hlt⟩ := h.offer ho
    exact ⟨hst.list hlt (fun _ => mem_ids_listAttribute) (Resolution.globals_listAttribute _ _),
      hk, hlt⟩
  | materialParameter _ _ hs _ ho =>
    obtain ⟨defines, rfl⟩ := hs.frame
    have h' : Stored { t with defines } := h.keep (Arena.Keeps.refl _) rfl rfl
    obtain ⟨hst, hk, hlt⟩ := h'.offer ho
    exact ⟨hst.list hlt (fun _ => mem_ids_listUniform) (Resolution.globals_listUniform _ _ _),
      hk, hlt⟩
  | worldParameter _ _ ho =>
    obtain ⟨hst, hk, hlt⟩ := h.offer ho
    exact ⟨hst.list hlt (fun _ => mem_ids_listUniform) (Resolution.globals_listUniform _ _ _),
      hk, hlt⟩
  | output _ _ _ _ =>
    exact ⟨h.addVariable _, Arena.keeps_add _ _, Arena.lt_of_get? (Arena.get?_add_nextId _ _)⟩
  | @varying _ node _ o _ _ _ _ _ ho =>
    obtain ⟨hst, hk, hlt⟩ := h.offer ho
    have hraise := Arena.keeps_raiseInputs node (o.arena.read o.id).name o.arena
    have hlist := hst.list hlt (fun _ => mem_ids_listVarying)
      (Resolution.globals_listVarying t.interface o)
    exact ⟨hlist.keep hraise rfl rfl, hk.trans hraise, hraise.lt hlt⟩

/-- The left side is only ever needed in more places. -/
theorem Resolution.Resolves.left_core {catalog : Catalog} {reference : Reference}
    {consumer : Consumer} {t t' : Technique} {left left' : Variable} {id : VarId}
    (hr : Resolves catalog reference consumer t left id t' left') : left'.core = left.core := by
  cases hr with
  | materialParameter _ _ hs _ _ => cases hs <;> rfl
  | _ => rfl

end ShaderGraph
