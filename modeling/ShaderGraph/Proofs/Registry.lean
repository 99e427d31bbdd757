/-
  ShaderGraph.Proofs.Registry — the registry and the arena it points into.

  A registry is only ever changed by offers, and an arena by new variables and by changes
  of variables in place (`Reached`). What all of these keep is `Sound`: no two
  declarations share a key or a variable, and each variable is in the arena.
-/

import Mathlib.Data.List.Nodup
import ShaderGraph.Declaration

namespace ShaderGraph

/-! ## The arena -/

namespace Arena

theorem lt_of_get? {a : Arena} {id : VarId} {v : Variable} (h : a.get? id = some v) :
    id.index < a.size := (List.getElem?_eq_some_iff.mp h).1

theorem exists_get? {a : Arena} {id : VarId} (h : id.index < a.size) : ∃ v, a.get? id = some v :=
  ⟨_, List.getElem?_eq_some_iff.mpr ⟨h, rfl⟩⟩

theorem read_of_get? {a : Arena} {id : VarId} {v : Variable} (h : a.get? id = some v) :
    a.read id = v := by rw [read, h]; rfl

theorem get?_add_of_get? {a : Arena} {id : VarId} {v : Variable} (h : a.get? id = some v)
    (w : Variable) : (a.add w).get? id = some v := by rw [get?_add_of_lt (lt_of_get? h), h]

/-- A variable of the larger arena is the new one, or was there. -/
theorem eq_or_get?_of_get?_add {a : Arena} {id : VarId} {v w : Variable}
    (h : (a.add w).get? id = some v) : v = w ∨ a.get? id = some v := by
  by_cases hlt : id.index < a.size
  · rw [get?_add_of_lt hlt] at h
    exact Or.inr h
  · have hge : a.slots.length ≤ id.index := Nat.le_of_not_lt hlt
    have hone : [w][id.index - a.slots.length]? = some v :=
      (List.getElem?_append_right hge).symm.trans h
    have hmem := List.mem_of_getElem? hone
    exact Or.inl (List.mem_singleton.mp hmem)

end Arena

/-! ## Offers -/

namespace Registry

def addConsumer (r : Registry) (key : DeclKey) (consumer : String) : Registry :=
  ⟨r.entries.map fun e => if e.key = key then e.addConsumer consumer else e⟩

def addDeclaration (r : Registry) (key : DeclKey) (id : VarId) (consumer : String) : Registry :=
  ⟨r.entries ++ [⟨key, id, [consumer]⟩]⟩

theorem mem_of_find? {r : Registry} {key : DeclKey} {d : Declaration} (h : r.find? key = some d) :
    d ∈ r.entries ∧ d.key = key := by
  refine ⟨List.mem_of_find?_eq_some h, ?_⟩
  simpa using List.find?_some h

theorem ne_of_find?_none {r : Registry} {key : DeclKey} (h : r.find? key = none) :
    ∀ d ∈ r.entries, d.key ≠ key := by
  intro d hd
  simpa using List.find?_eq_none.mp h d hd

/-- An offer finds the declaration of its key, or makes it. -/
theorem offer_cases (r : Registry) (a : Arena) (key : DeclKey) (v : Variable) (consumer : String) :
    (∃ d ∈ r.entries, d.key = key ∧
      r.offer a key v consumer = ⟨d.id, false, r.addConsumer key consumer, a⟩) ∨
    ((∀ d ∈ r.entries, d.key ≠ key) ∧
      r.offer a key v consumer =
        ⟨a.nextId, true, r.addDeclaration key a.nextId consumer, a.add v⟩) := by
  unfold offer
  cases h : r.find? key with
  | some d => exact Or.inl ⟨d, (mem_of_find? h).1, (mem_of_find? h).2, rfl⟩
  | none => exact Or.inr ⟨ne_of_find?_none h, rfl⟩

/-- What is offered is declared under its key. -/
theorem exists_offered (r : Registry) (a : Arena) (key : DeclKey) (v : Variable)
    (consumer : String) : ∃ d ∈ (r.offer a key v consumer).registry.entries,
      d.key = key ∧ d.id = (r.offer a key v consumer).id := by
  rcases offer_cases r a key v consumer with ⟨d, hd, hkey, ho⟩ | ⟨-, ho⟩
  · rw [ho]
    exact ⟨d.addConsumer consumer, List.mem_map.mpr ⟨d, hd, if_pos hkey⟩, hkey, rfl⟩
  · rw [ho]
    exact ⟨_, List.mem_append_right _ (List.mem_singleton_self _), rfl, rfl⟩

/-- A declaration after an offer is one from before it, of the same key and variable, or the one
of the offer. -/
theorem mem_addConsumer {r : Registry} {key : DeclKey} {consumer : String} {e : Declaration}
    (h : e ∈ (r.addConsumer key consumer).entries) :
    ∃ d ∈ r.entries, d.key = e.key ∧ d.id = e.id := by
  obtain ⟨d, hd, rfl⟩ := List.mem_map.mp h
  refine ⟨d, hd, ?_⟩
  split <;> exact ⟨rfl, rfl⟩

theorem map_key_addConsumer (r : Registry) (key : DeclKey) (consumer : String) :
    (r.addConsumer key consumer).entries.map (·.key) = r.entries.map (·.key) := by
  simp only [addConsumer, List.map_map]
  refine List.map_congr_left fun d _ => ?_
  show (if d.key = key then d.addConsumer consumer else d).key = d.key
  split <;> rfl

theorem map_id_addConsumer (r : Registry) (key : DeclKey) (consumer : String) :
    (r.addConsumer key consumer).entries.map (·.id) = r.entries.map (·.id) := by
  simp only [addConsumer, List.map_map]
  refine List.map_congr_left fun d _ => ?_
  show (if d.key = key then d.addConsumer consumer else d).id = d.id
  split <;> rfl

theorem mem_addDeclaration {r : Registry} {key : DeclKey} {id : VarId} {consumer : String}
    {e : Declaration} : e ∈ (r.addDeclaration key id consumer).entries ↔
      e ∈ r.entries ∨ e = ⟨key, id, [consumer]⟩ := by
  simp [addDeclaration]

theorem map_key_addDeclaration (r : Registry) (key : DeclKey) (id : VarId) (consumer : String) :
    (r.addDeclaration key id consumer).entries.map (·.key) = r.entries.map (·.key) ++ [key] := by
  simp [addDeclaration]

theorem map_id_addDeclaration (r : Registry) (key : DeclKey) (id : VarId) (consumer : String) :
    (r.addDeclaration key id consumer).entries.map (·.id) = r.entries.map (·.id) ++ [id] := by
  simp [addDeclaration]

/-! ## What every offer keeps -/

structure Sound (r : Registry) (a : Arena) : Prop where
  keys : (r.entries.map (·.key)).Nodup
  ids : (r.entries.map (·.id)).Nodup
  stored : ∀ d ∈ r.entries, d.id.index < a.size

theorem sound_empty (a : Arena) : Sound empty a :=
  ⟨List.nodup_nil, List.nodup_nil, fun _ h => absurd h List.not_mem_nil⟩

/-- A larger arena does as well. -/
theorem Sound.mono {r : Registry} {a b : Arena} (h : Sound r a) (hab : a.size ≤ b.size) :
    Sound r b := ⟨h.keys, h.ids, fun d hd => Nat.lt_of_lt_of_le (h.stored d hd) hab⟩

theorem Sound.offer {r : Registry} {a : Arena} (h : Sound r a) (key : DeclKey) (v : Variable)
    (consumer : String) :
    Sound (r.offer a key v consumer).registry (r.offer a key v consumer).arena := by
  rcases offer_cases r a key v consumer with ⟨d, -, -, ho⟩ | ⟨hne, ho⟩
  · rw [ho]
    refine ⟨?_, ?_, fun e he => ?_⟩
    · rw [map_key_addConsumer]; exact h.keys
    · rw [map_id_addConsumer]; exact h.ids
    · obtain ⟨d, hd, -, hid⟩ := mem_addConsumer he
      rw [← hid]; exact h.stored d hd
  · rw [ho]
    -- the new variable is behind those of all declarations so far
    have fresh : ∀ d ∈ r.entries, d.id ≠ a.nextId := by
      intro d hd he
      have := h.stored d hd
      rw [he] at this
      exact Nat.lt_irrefl _ this
    refine ⟨?_, ?_, fun e he => ?_⟩
    · rw [map_key_addDeclaration]
      refine List.nodup_append.mpr ⟨h.keys, List.nodup_singleton _, fun x hx y hy => ?_⟩
      obtain ⟨d, hd, rfl⟩ := List.mem_map.mp hx
      rw [List.mem_singleton.mp hy]
      exact hne d hd
    · rw [map_id_addDeclaration]
      refine List.nodup_append.mpr ⟨h.ids, List.nodup_singleton _, fun x hx y hy => ?_⟩
      obtain ⟨d, hd, rfl⟩ := List.mem_map.mp hx
      rw [List.mem_singleton.mp hy]
      exact fresh d hd
    · rw [Arena.size_add]
      rcases mem_addDeclaration.mp he with he | rfl
      · exact Nat.lt_succ_of_lt (h.stored e he)
      · exact Nat.lt_succ_self _

/-- Two declarations of one key are one. -/
theorem Sound.eq_of_key {r : Registry} {a : Arena} (h : Sound r a) {d e : Declaration}
    (hd : d ∈ r.entries) (he : e ∈ r.entries) (hk : d.key = e.key) : d = e :=
  List.inj_on_of_nodup_map h.keys hd he hk

theorem Sound.eq_of_id {r : Registry} {a : Arena} (h : Sound r a) {d e : Declaration}
    (hd : d ∈ r.entries) (he : e ∈ r.entries) (hk : d.id = e.id) : d = e :=
  List.inj_on_of_nodup_map h.ids hd he hk

/-- No declaration so far has the variable that comes next. -/
theorem Sound.ne_nextId {r : Registry} {a : Arena} (h : Sound r a) {d : Declaration}
    (hd : d ∈ r.entries) : d.id ≠ a.nextId := by
  intro he
  have hlt := h.stored d hd
  rw [he] at hlt
  exact Nat.lt_irrefl _ hlt

/-- After an offer, every declaration of another variable is as it was; the one of the variable
that is offered has one consumer more, or is new. -/
theorem Sound.mem_offer {r : Registry} {a : Arena} (h : Sound r a) {key : DeclKey} {v : Variable}
    {consumer : String} {e : Declaration}
    (he : e ∈ (r.offer a key v consumer).registry.entries) :
    (e ∈ r.entries ∧ e.id ≠ (r.offer a key v consumer).id) ∨
      (∃ d ∈ r.entries, d.id = (r.offer a key v consumer).id ∧ e = d.addConsumer consumer) ∨
      (e = ⟨key, a.nextId, [consumer]⟩ ∧ (r.offer a key v consumer).id = a.nextId) := by
  rcases offer_cases r a key v consumer with ⟨d, hd, hkey, ho⟩ | ⟨-, ho⟩
  · rw [ho] at he ⊢
    obtain ⟨e, hmem, rfl⟩ := List.mem_map.mp he
    by_cases hek : e.key = key
    · rw [if_pos hek]
      have hed : e = d := h.eq_of_key hmem hd (hek.trans hkey.symm)
      exact Or.inr (Or.inl ⟨e, hmem, congrArg Declaration.id hed, rfl⟩)
    · rw [if_neg hek]
      refine Or.inl ⟨hmem, fun hid => hek ?_⟩
      rw [h.eq_of_id hmem hd hid]
      exact hkey
  · rw [ho] at he ⊢
    rcases mem_addDeclaration.mp he with he | rfl
    · exact Or.inl ⟨he, h.ne_nextId he⟩
    · exact Or.inr (Or.inr ⟨rfl, rfl⟩)

/-- A registry and its arena after any offers, with any changes of the arena between them. -/
inductive Reached : Registry → Arena → Prop
  | empty (a : Arena) : Reached .empty a
  | offer {r : Registry} {a : Arena} (key : DeclKey) (v : Variable) (consumer : String) :
      Reached r a → Reached (r.offer a key v consumer).registry (r.offer a key v consumer).arena
  | add {r : Registry} {a : Arena} (v : Variable) : Reached r a → Reached r (a.add v)
  | update {r : Registry} {a : Arena} (id : VarId) (f : Variable → Variable) :
      Reached r a → Reached r (a.update id f)

theorem Reached.sound {r : Registry} {a : Arena} (h : Reached r a) : Sound r a := by
  induction h with
  | empty a => exact sound_empty a
  | offer key v consumer _ ih => exact ih.offer key v consumer
  | add v _ ih => exact ih.mono (by simp)
  | update id f _ ih => exact ih.mono (by simp)

end Registry

end ShaderGraph
