/-
  ShaderGraph.Proofs.FirstWins — a registry is an ordered map in which the first offer wins.

  Variables are offered under keys, and others are added to the arena in between (`Event`). The
  registry lists each key once, at the place of its first offer, with the variable of that
  offer and a handle of its own; a later offer of the key is only remembered by its consumer.

  The declarations may also be stored with an index of the place of each key beside them
  (`Indexed`), so that no look-up has to search. The index must then never point past the
  declarations, nor to one of another key.

  - `FirstWins`: what a registry and its answers are, told from the offers alone.
  - `FirstWins.step`: no event breaks it.
  - `Agrees.step`: an indexed registry takes every event as the one that searches does.
  - `firstWins_run`: so both are right after any events.
-/

import ShaderGraph.Proofs.Listing

namespace ShaderGraph

/-! ## Offers and additions -/

structure Offer where
  key : DeclKey
  offered : Variable
  consumer : String

inductive Event where
  | offer (o : Offer)
  /-- A variable that is not declared. -/
  | add (v : Variable)

def Event.offer? : Event → Option Offer
  | offer o => some o
  | add _ => none

/-- A registry `ρ` with its arena, and the answers to the offers so far: which variable is declared
under the key, and whether it is a new one. -/
structure Session (ρ : Type) where
  registry : ρ
  arena : Arena
  answers : List (VarId × Bool)

namespace Session

def start {ρ : Type} (empty : ρ) (a : Arena) : Session ρ := ⟨empty, a, []⟩

def offer (s : Session Registry) (o : Offer) : Session Registry :=
  let offered := s.registry.offer s.arena o.key o.offered o.consumer
  ⟨offered.registry, offered.arena, s.answers ++ [(offered.id, offered.isNew)]⟩

def add {ρ : Type} (s : Session ρ) (v : Variable) : Session ρ := { s with arena := s.arena.add v }

def step (s : Session Registry) : Event → Session Registry
  | .offer o => s.offer o
  | .add v => s.add v

/-- The session after some events. It starts with any arena and nothing declared. -/
def run (a : Arena) (events : List Event) : Session Registry :=
  events.foldl step (start .empty a)

end Session

/-! ## What the offers say -/

def Offer.keys (offers : List Offer) : List DeclKey := (offers.map (·.key)).eraseDups

def Offer.consumers (offers : List Offer) (key : DeclKey) : List String :=
  ((offers.filter (·.key == key)).map (·.consumer)).eraseDups

def Offer.first? (offers : List Offer) (key : DeclKey) : Option Offer :=
  offers.find? (·.key == key)

/-- The registry is the one that the offers lead to, and they were answered rightly. -/
structure FirstWins (offers : List Offer) (s : Session Registry) : Prop where
  keys : s.registry.entries.map (·.key) = Offer.keys offers
  ids : (s.registry.entries.map (·.id)).Nodup
  stored : ∀ d ∈ s.registry.entries, ∃ o, Offer.first? offers d.key = some o ∧
    s.arena.get? d.id = some o.offered
  consumers : ∀ d ∈ s.registry.entries, d.consumers = Offer.consumers offers d.key
  found : ∀ key d, s.registry.find? key = some d ↔ d ∈ s.registry.entries ∧ d.key = key
  answered : s.answers.length = offers.length
  /-- An offer is answered by the variable of its key, as a new one if no offer before it had the
  key. -/
  answer : ∀ before o after, offers = before ++ o :: after →
    ∃ d ∈ s.registry.entries, d.key = o.key ∧
      s.answers[before.length]? = some (d.id, decide (o.key ∉ before.map (·.key)))

section

variable {offers : List Offer} {o : Offer} {key : DeclKey}

theorem Offer.keys_snoc (offers : List Offer) (o : Offer) :
    keys (offers ++ [o]) = addOnce (keys offers) o.key := by
  rw [keys, List.map_append]
  exact eraseDups_snoc _ o.key

theorem Offer.mem_keys : key ∈ keys offers ↔ key ∈ offers.map (·.key) := List.mem_eraseDups

theorem Offer.consumers_snoc_self (offers : List Offer) (o : Offer) :
    consumers (offers ++ [o]) o.key = addOnce (consumers offers o.key) o.consumer := by
  rw [consumers, List.filter_append, List.map_append]
  simp [consumers, eraseDups_snoc]

theorem Offer.consumers_snoc_of_ne (h : key ≠ o.key) :
    consumers (offers ++ [o]) key = consumers offers key := by
  simp [consumers, Ne.symm h]

theorem Offer.consumers_of_notMem (h : key ∉ offers.map (·.key)) : consumers offers key = [] := by
  have hnone : offers.filter (·.key == key) = [] := by
    refine List.filter_eq_nil_iff.mpr fun o ho hk => h ?_
    exact List.mem_map.mpr ⟨o, ho, by simpa using hk⟩
  simp [consumers, hnone]

/-- The first offer stays the first one. -/
theorem Offer.first?_append {first : Offer} (h : first? offers key = some first)
    (more : List Offer) : first? (offers ++ more) key = some first := by
  rw [first?, List.find?_append, show offers.find? (·.key == key) = some first from h]
  rfl

theorem Offer.first?_snoc_self (h : o.key ∉ offers.map (·.key)) :
    first? (offers ++ [o]) o.key = some o := by
  have hnone : offers.find? (·.key == o.key) = none := by
    refine List.find?_eq_none.mpr fun p hp hk => h ?_
    exact List.mem_map.mpr ⟨p, hp, by simpa using hk⟩
  rw [first?, List.find?_append, hnone]
  simp

end

/-! ## Every event keeps it -/

section

variable {offers : List Offer} {s : Session Registry} {o : Offer}

theorem FirstWins.key_mem_iff (h : FirstWins offers s) {key : DeclKey} :
    (∃ d ∈ s.registry.entries, d.key = key) ↔ key ∈ offers.map (·.key) := by
  rw [← Offer.mem_keys, ← h.keys]
  exact List.mem_map.symm

/-- Looking a key up finds its declaration, because no other has it. -/
theorem Registry.find?_eq_some_iff {r : Registry} (h : (r.entries.map (·.key)).Nodup)
    {key : DeclKey} {d : Declaration} :
    r.find? key = some d ↔ d ∈ r.entries ∧ d.key = key := by
  constructor
  · exact Registry.mem_of_find?
  · rintro ⟨hd, rfl⟩
    cases hf : r.find? d.key with
    | none => exact absurd rfl (Registry.ne_of_find?_none hf d hd)
    | some e =>
      obtain ⟨he, hkey⟩ := Registry.mem_of_find? hf
      exact congrArg some (List.inj_on_of_nodup_map h he hd hkey)

theorem FirstWins.sound (h : FirstWins offers s) : s.registry.Sound s.arena := by
  refine ⟨?_, h.ids, ?_⟩
  · rw [h.keys]
    exact nodup_eraseDups _
  · intro d hd
    obtain ⟨o, -, hv⟩ := h.stored d hd
    exact Arena.lt_of_get? hv

/-- Answers so far stay right where every declaration keeps its key and its variable. -/
theorem FirstWins.answer_append (h : FirstWins offers s) {r : Registry}
    (hr : ∀ d ∈ s.registry.entries, ∃ e ∈ r.entries, e.key = d.key ∧ e.id = d.id)
    {last : Declaration} (hlast : last ∈ r.entries) (hkey : last.key = o.key) :
    ∀ before p after, offers ++ [o] = before ++ p :: after →
      ∃ d ∈ r.entries, d.key = p.key ∧
        (s.answers ++ [(last.id, decide (o.key ∉ offers.map (·.key)))])[before.length]? =
          some (d.id, decide (p.key ∉ before.map (·.key))) := by
  intro before p after hsplit
  rcases List.eq_nil_or_concat' after with rfl | ⟨front, x, rfl⟩
  · obtain ⟨rfl, hone⟩ := List.append_inj' hsplit rfl
    cases hone
    refine ⟨last, hlast, hkey, ?_⟩
    rw [← h.answered, List.getElem?_concat_length]
  · rw [← List.cons_append, ← List.append_assoc] at hsplit
    obtain ⟨hfront, -⟩ := List.append_inj' hsplit rfl
    obtain ⟨d, hd, hdkey, hanswer⟩ := h.answer before p front hfront
    obtain ⟨e, he, hekey, heid⟩ := hr d hd
    refine ⟨e, he, hekey.trans hdkey, ?_⟩
    rw [List.getElem?_append_left (List.getElem?_eq_some_iff.mp hanswer).1, hanswer, heid]

/-- An offer under a known key adds its consumer and nothing else. -/
theorem FirstWins.addConsumer (h : FirstWins offers s) {d : Declaration}
    (hd : d ∈ s.registry.entries) (hkey : d.key = o.key) :
    FirstWins (offers ++ [o])
      ⟨s.registry.addConsumer o.key o.consumer, s.arena, s.answers ++ [(d.id, false)]⟩ := by
  have hmem : o.key ∈ offers.map (·.key) := h.key_mem_iff.mp ⟨d, hd, hkey⟩
  have hkeys : (s.registry.addConsumer o.key o.consumer).entries.map (·.key) =
      Offer.keys (offers ++ [o]) := by
    have hknown : (Offer.keys offers).contains o.key = true :=
      List.contains_iff_mem.mpr (Offer.mem_keys.mpr hmem)
    rw [Registry.map_key_addConsumer, h.keys, Offer.keys_snoc, addOnce, if_pos hknown]
  have hnodup : ((s.registry.addConsumer o.key o.consumer).entries.map (·.key)).Nodup := by
    rw [hkeys]
    exact nodup_eraseDups _
  have hold : ∀ e ∈ s.registry.entries,
      ∃ e' ∈ (s.registry.addConsumer o.key o.consumer).entries, e'.key = e.key ∧ e'.id = e.id := by
    intro e he
    refine ⟨_, List.mem_map_of_mem he, ?_⟩
    split <;> exact ⟨rfl, rfl⟩
  refine ⟨hkeys, ?_, ?_, ?_, fun key e => Registry.find?_eq_some_iff hnodup, ?_, ?_⟩
  · rw [Registry.map_id_addConsumer]
    exact h.ids
  · intro e he
    obtain ⟨e', he', hk, hid⟩ := Registry.mem_addConsumer he
    obtain ⟨first, hfirst, hv⟩ := h.stored e' he'
    rw [← hk, ← hid]
    exact ⟨first, Offer.first?_append hfirst [o], hv⟩
  · intro e he
    obtain ⟨e', he', rfl⟩ := List.mem_map.mp he
    by_cases hk : e'.key = o.key
    · rw [if_pos hk]
      show addOnce e'.consumers o.consumer = Offer.consumers (offers ++ [o]) e'.key
      rw [hk, Offer.consumers_snoc_self, ← hk, h.consumers e' he']
    · rw [if_neg hk, Offer.consumers_snoc_of_ne hk]
      exact h.consumers e' he'
  · simp [h.answered]
  · obtain ⟨d', hd', hk', hid'⟩ := hold d hd
    have hanswer := h.answer_append hold hd' (hk'.trans hkey)
    rw [hid', decide_eq_false (not_not.mpr hmem)] at hanswer
    exact hanswer

/-- An offer under a new key makes a declaration of its own. -/
theorem FirstWins.addDeclaration (h : FirstWins offers s)
    (hnew : ∀ d ∈ s.registry.entries, d.key ≠ o.key) :
    FirstWins (offers ++ [o])
      ⟨s.registry.addDeclaration o.key s.arena.nextId o.consumer, s.arena.add o.offered,
        s.answers ++ [(s.arena.nextId, true)]⟩ := by
  have hmem : o.key ∉ offers.map (·.key) := by
    intro hk
    obtain ⟨d, hd, hkey⟩ := h.key_mem_iff.mpr hk
    exact hnew d hd hkey
  have hkeys : (s.registry.addDeclaration o.key s.arena.nextId o.consumer).entries.map (·.key) =
      Offer.keys (offers ++ [o]) := by
    have hunknown : ¬ (Offer.keys offers).contains o.key = true := fun hk =>
      hmem (Offer.mem_keys.mp (List.contains_iff_mem.mp hk))
    rw [Registry.map_key_addDeclaration, h.keys, Offer.keys_snoc, addOnce, if_neg hunknown]
  have hnodup : ((s.registry.addDeclaration o.key s.arena.nextId o.consumer).entries.map
      (·.key)).Nodup := by
    rw [hkeys]
    exact nodup_eraseDups _
  have hlast : (⟨o.key, s.arena.nextId, [o.consumer]⟩ : Declaration) ∈
      (s.registry.addDeclaration o.key s.arena.nextId o.consumer).entries :=
    Registry.mem_addDeclaration.mpr (Or.inr rfl)
  refine ⟨hkeys, ?_, ?_, ?_, fun key e => Registry.find?_eq_some_iff hnodup, ?_, ?_⟩
  · -- the handle is the next one, which no declaration has
    rw [Registry.map_id_addDeclaration]
    refine List.nodup_append.mpr ⟨h.ids, List.nodup_singleton _, fun x hx y hy => ?_⟩
    obtain ⟨d, hd, rfl⟩ := List.mem_map.mp hx
    rw [List.mem_singleton.mp hy]
    exact h.sound.ne_nextId hd
  · intro e he
    rcases Registry.mem_addDeclaration.mp he with he | rfl
    · obtain ⟨first, hfirst, hv⟩ := h.stored e he
      exact ⟨first, Offer.first?_append hfirst [o], Arena.get?_add_of_get? hv o.offered⟩
    · exact ⟨o, Offer.first?_snoc_self hmem, Arena.get?_add_nextId _ _⟩
  · intro e he
    rcases Registry.mem_addDeclaration.mp he with he | rfl
    · rw [Offer.consumers_snoc_of_ne (hnew e he)]
      exact h.consumers e he
    · rw [Offer.consumers_snoc_self, Offer.consumers_of_notMem hmem]
      rfl
  · simp [h.answered]
  · have hanswer := h.answer_append (o := o)
      (fun d hd => ⟨d, Registry.mem_addDeclaration.mpr (Or.inl hd), rfl, rfl⟩) hlast rfl
    rw [decide_eq_true hmem] at hanswer
    exact hanswer

theorem FirstWins.offer (h : FirstWins offers s) (o : Offer) :
    FirstWins (offers ++ [o]) (s.offer o) := by
  unfold Session.offer
  rcases Registry.offer_cases s.registry s.arena o.key o.offered o.consumer with
    ⟨d, hd, hkey, hcase⟩ | ⟨hnew, hcase⟩
  · rw [hcase]
    exact h.addConsumer hd hkey
  · rw [hcase]
    exact h.addDeclaration hnew

theorem FirstWins.add (h : FirstWins offers s) (v : Variable) : FirstWins offers (s.add v) := by
  refine ⟨h.keys, h.ids, ?_, h.consumers, h.found, h.answered, h.answer⟩
  intro d hd
  obtain ⟨o, ho, hv⟩ := h.stored d hd
  exact ⟨o, ho, Arena.get?_add_of_get? hv v⟩

theorem FirstWins.step (h : FirstWins offers s) (e : Event) :
    FirstWins (offers ++ e.offer?.toList) (s.step e) := by
  cases e with
  | offer o => exact h.offer o
  | add v =>
    have hnone : offers ++ (Event.add v).offer?.toList = offers := List.append_nil offers
    rw [hnone]
    exact h.add v

theorem firstWins_start (a : Arena) : FirstWins [] (Session.start .empty a) := by
  refine ⟨by simp [Session.start, Registry.empty, Offer.keys], List.nodup_nil, ?_, ?_, ?_, rfl, ?_⟩
  · exact fun d hd => absurd hd List.not_mem_nil
  · exact fun d hd => absurd hd List.not_mem_nil
  · exact fun key d => Registry.find?_eq_some_iff (r := .empty) List.nodup_nil
  · intro before o after hsplit
    simp at hsplit

end

/-! ## An index of the places -/

deriving instance Hashable for DeclKey

/-- The declarations with the place of each key beside them. -/
structure Indexed where
  index : Std.HashMap DeclKey Nat
  entries : List Declaration

namespace Indexed

def empty : Indexed := ⟨∅, []⟩

/-- The declaration of a key, if there is one. No result at all means that the index points past
the declarations. -/
def find? (r : Indexed) (key : DeclKey) : Option (Option Declaration) :=
  match r.index[key]? with
  | some i => r.entries[i]?.map some
  | none => some none

/-- The session after an offer, which looks nothing up but the index. -/
def offer (s : Session Indexed) (o : Offer) : Option (Session Indexed) :=
  match s.registry.index[o.key]? with
  | some i => s.registry.entries[i]?.map fun d => {
      registry := { s.registry with entries := s.registry.entries.set i (d.addConsumer o.consumer) }
      arena := s.arena
      answers := s.answers ++ [(d.id, false)] }
  | none => some {
      registry := {
        index := s.registry.index.insert o.key s.registry.entries.length
        entries := s.registry.entries ++ [⟨o.key, s.arena.nextId, [o.consumer]⟩] }
      arena := s.arena.add o.offered
      answers := s.answers ++ [(s.arena.nextId, true)] }

def step (s : Session Indexed) : Event → Option (Session Indexed)
  | .offer o => offer s o
  | .add v => some (s.add v)

def run (a : Arena) (events : List Event) : Option (Session Indexed) :=
  events.foldlM step (Session.start empty a)

def InStep (r : Indexed) : Prop :=
  ∀ (key : DeclKey) (i : Nat), r.index[key]? = some i ↔ (r.entries.map (·.key))[i]? = some key

structure Agrees (s : Session Indexed) (t : Session Registry) : Prop where
  inStep : s.registry.InStep
  entries : s.registry.entries = t.registry.entries
  arena : s.arena = t.arena
  answers : s.answers = t.answers
  found : ∀ key, s.registry.find? key = some (t.registry.find? key)

section

variable {r : Indexed} {s : Session Indexed} {t : Session Registry} {o : Offer} {key : DeclKey}
  {i : Nat}

/-- Through the index a search ends at the same declaration. -/
theorem InStep.find?_eq (h : r.InStep) (hn : (r.entries.map (·.key)).Nodup) (key : DeclKey) :
    r.find? key = some ((⟨r.entries⟩ : Registry).find? key) := by
  unfold find?
  cases hi : r.index[key]? with
  | some i =>
    have hplace := (h key i).mp hi
    rw [List.getElem?_map, Option.map_eq_some_iff] at hplace
    obtain ⟨d, hd, hkey⟩ := hplace
    have hfind : (⟨r.entries⟩ : Registry).find? key = some d :=
      (Registry.find?_eq_some_iff hn).mpr ⟨List.mem_of_getElem? hd, hkey⟩
    simp only [hd, hfind, Option.map_some]
  | none =>
    cases hf : (⟨r.entries⟩ : Registry).find? key with
    | none => rfl
    | some d =>
      obtain ⟨hd, hkey⟩ := Registry.mem_of_find? hf
      obtain ⟨i, hi'⟩ := List.mem_iff_getElem?.mp (List.mem_map_of_mem (f := (·.key)) hd)
      rw [hkey] at hi'
      rw [(h key i).mpr hi'] at hi
      cases hi

/-- Where the keys are distinct, changing the declaration at the place of a key is changing the
declaration of the key. -/
theorem set_eq_map {ds : List Declaration} (hn : (ds.map (·.key)).Nodup) {d : Declaration}
    (hd : ds[i]? = some d) (consumer : String) :
    ds.set i (d.addConsumer consumer) =
      ds.map fun e => if e.key = d.key then e.addConsumer consumer else e := by
  refine List.ext_getElem? fun j => ?_
  rw [List.getElem?_map]
  by_cases hj : i = j
  · subst hj
    rw [List.getElem?_set_self (List.getElem?_eq_some_iff.mp hd).1, hd, Option.map_some,
      if_pos rfl]
  · rw [List.getElem?_set_ne hj]
    cases he : ds[j]? with
    | none => rfl
    | some e =>
      have hne : e.key ≠ d.key := by
        intro hkey
        have hjlt : j < (ds.map (·.key)).length := by
          rw [List.length_map]
          exact (List.getElem?_eq_some_iff.mp he).1
        refine hj ((List.getElem?_inj hjlt hn).mp ?_).symm
        rw [List.getElem?_map, List.getElem?_map, he, hd, Option.map_some, Option.map_some, hkey]
      rw [Option.map_some, if_neg hne]

/-- A new key gets the place behind all others. -/
theorem InStep.insert (h : r.InStep) (hnew : r.index[key]? = none) {d : Declaration}
    (hd : d.key = key) :
    InStep ⟨r.index.insert key r.entries.length, r.entries ++ [d]⟩ := by
  intro k j
  have hold := h k j
  have hlen : (r.entries.map (·.key)).length = r.entries.length := List.length_map _
  simp only [List.map_append, List.map_cons, List.map_nil, Std.HashMap.getElem?_insert, beq_iff_eq]
  by_cases hk : key = k
  · subst hk
    rw [if_pos rfl]
    constructor
    · intro hj
      cases hj
      rw [← hlen, List.getElem?_concat_length, hd]
    · intro hj
      by_cases hlt : j < (r.entries.map (·.key)).length
      · rw [List.getElem?_append_left hlt, ← h key j, hnew] at hj
        cases hj
      · have hle := (List.getElem?_eq_some_iff.mp hj).1
        rw [List.length_append, List.length_singleton] at hle
        congr 1
        omega
  · rw [if_neg hk, hold]
    by_cases hlt : j < (r.entries.map (·.key)).length
    · rw [List.getElem?_append_left hlt]
    · rw [List.getElem?_eq_none (Nat.le_of_not_lt hlt)]
      refine iff_of_false (fun hj => by cases hj) fun hj => ?_
      rw [List.getElem?_append_right (Nat.le_of_not_lt hlt)] at hj
      have hmem := List.mem_singleton.mp (List.mem_of_getElem? hj)
      exact hk (hd.symm.trans hmem.symm)

/-- A search ends alike as soon as the index is in step. -/
theorem Agrees.of_inStep (hn : (t.registry.entries.map (·.key)).Nodup)
    (hstep : s.registry.InStep) (hentries : s.registry.entries = t.registry.entries)
    (harena : s.arena = t.arena) (hanswers : s.answers = t.answers) : Agrees s t := by
  refine ⟨hstep, hentries, harena, hanswers, fun key => ?_⟩
  rw [hstep.find?_eq (hentries ▸ hn), hentries]

/-- An offer under a known key changes one declaration in place. -/
theorem Agrees.addConsumer (h : Agrees s t) {d : Declaration} (hd : d ∈ t.registry.entries)
    (hkey : d.key = o.key) (hkeys : (t.registry.entries.map (·.key)).Nodup) :
    ∃ s', offer s o = some s' ∧ Agrees s' ⟨t.registry.addConsumer o.key o.consumer, t.arena,
      t.answers ++ [(d.id, false)]⟩ := by
  obtain ⟨i, hi⟩ := List.mem_iff_getElem?.mp hd
  have hkeys' : ((t.registry.addConsumer o.key o.consumer).entries.map (·.key)).Nodup := by
    rw [Registry.map_key_addConsumer]
    exact hkeys
  rw [← h.entries] at hi hkeys
  have hplace : s.registry.index[o.key]? = some i := by
    rw [h.inStep, List.getElem?_map, hi, Option.map_some, hkey]
  have hoffer : offer s o = some {
      registry := { s.registry with entries := s.registry.entries.set i (d.addConsumer o.consumer) }
      arena := s.arena
      answers := s.answers ++ [(d.id, false)] } := by
    simp only [offer, hplace, hi, Option.map_some]
  have hset : s.registry.entries.set i (d.addConsumer o.consumer) =
      (t.registry.addConsumer o.key o.consumer).entries := by
    rw [set_eq_map hkeys hi, hkey, h.entries]
    rfl
  refine ⟨_, hoffer, .of_inStep hkeys' (fun key j => ?_) hset h.arena ?_⟩
  · show s.registry.index[key]? = some j ↔ _
    rw [hset, Registry.map_key_addConsumer, ← h.entries]
    exact h.inStep key j
  · exact congrArg (· ++ [(d.id, false)]) h.answers

/-- An offer under a new key is stored behind the others, and so says the index. -/
theorem Agrees.addDeclaration (h : Agrees s t) (hnew : ∀ d ∈ t.registry.entries, d.key ≠ o.key)
    (hkeys : ((t.registry.addDeclaration o.key t.arena.nextId o.consumer).entries.map
      (·.key)).Nodup) :
    ∃ s', offer s o = some s' ∧ Agrees s'
      ⟨t.registry.addDeclaration o.key t.arena.nextId o.consumer, t.arena.add o.offered,
        t.answers ++ [(t.arena.nextId, true)]⟩ := by
  have hplace : s.registry.index[o.key]? = none := by
    cases hi : s.registry.index[o.key]? with
    | none => rfl
    | some i =>
      have hkey := (h.inStep o.key i).mp hi
      obtain ⟨d, hd, hdkey⟩ := List.mem_map.mp (List.mem_of_getElem? hkey)
      exact absurd hdkey (hnew d (h.entries ▸ hd))
  have hoffer : offer s o = some {
      registry := {
        index := s.registry.index.insert o.key s.registry.entries.length
        entries := s.registry.entries ++ [⟨o.key, s.arena.nextId, [o.consumer]⟩] }
      arena := s.arena.add o.offered
      answers := s.answers ++ [(s.arena.nextId, true)] } := by
    simp only [offer, hplace]
  refine ⟨_, hoffer, .of_inStep hkeys (h.inStep.insert hplace rfl) ?_ ?_ ?_⟩
  · show s.registry.entries ++ _ = _
    rw [h.entries, h.arena]
    rfl
  · show s.arena.add o.offered = _
    rw [h.arena]
  · show s.answers ++ [(s.arena.nextId, true)] = _
    rw [h.answers, h.arena]

/-- Every event is taken, and taken alike. -/
theorem Agrees.step {offers : List Offer} (h : Agrees s t) (hw : FirstWins offers t) (e : Event) :
    ∃ s', step s e = some s' ∧ Agrees s' (t.step e) := by
  cases e with
  | add v =>
    have harena : s.arena.add v = t.arena.add v := by rw [h.arena]
    exact ⟨s.add v, rfl, h.inStep, h.entries, harena, h.answers, h.found⟩
  | offer o =>
    have hkeys' : ((t.offer o).registry.entries.map (·.key)).Nodup := (hw.offer o).sound.keys
    rcases Registry.offer_cases t.registry t.arena o.key o.offered o.consumer with
      ⟨d, hd, hkey, hcase⟩ | ⟨hnew, hcase⟩
    · obtain ⟨s', hoffer, hagrees⟩ := h.addConsumer hd hkey hw.sound.keys
      refine ⟨s', hoffer, ?_⟩
      rw [Session.step, Session.offer, hcase]
      exact hagrees
    · rw [Session.offer, hcase] at hkeys'
      obtain ⟨s', hoffer, hagrees⟩ := h.addDeclaration hnew hkeys'
      refine ⟨s', hoffer, ?_⟩
      rw [Session.step, Session.offer, hcase]
      exact hagrees

theorem agrees_start (a : Arena) : Agrees (Session.start empty a) (Session.start .empty a) := by
  refine ⟨fun key i => ?_, rfl, rfl, rfl, fun key => ?_⟩
  · simp [Session.start, empty]
  · simp [Session.start, empty, find?, Registry.find?, Registry.empty]

end

end Indexed

/-! ## Any events -/

/-- After any offers, with anything added to the arena between them, the first offer of each key
has won, and a registry with an index has taken and answered them all alike. -/
theorem firstWins_run (a : Arena) (events : List Event) :
    FirstWins (events.filterMap Event.offer?) (Session.run a events) ∧
      ∃ s, Indexed.run a events = some s ∧ Indexed.Agrees s (Session.run a events) := by
  induction events using List.reverseRecOn with
  | nil => exact ⟨firstWins_start a, _, rfl, Indexed.agrees_start a⟩
  | append_singleton events e ih =>
    obtain ⟨hwins, s, hrun, hagrees⟩ := ih
    obtain ⟨s', hstep, hagrees'⟩ := hagrees.step hwins e
    have hlast : Session.run a (events ++ [e]) = (Session.run a events).step e := by
      rw [Session.run, List.foldl_append]
      rfl
    have hoffers : (events ++ [e]).filterMap Event.offer? =
        events.filterMap Event.offer? ++ e.offer?.toList := by
      rw [List.filterMap_append]
      cases e <;> rfl
    rw [hlast, hoffers]
    refine ⟨hwins.step e, s', ?_, hagrees'⟩
    rw [Indexed.run, List.foldlM_append]
    simp only [Indexed.run] at hrun
    rw [hrun]
    show ([e].foldlM Indexed.step s) = some s'
    rw [List.foldlM_cons, hstep]
    rfl

end ShaderGraph
