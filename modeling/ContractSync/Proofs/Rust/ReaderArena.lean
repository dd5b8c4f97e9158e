import ContractSync.Proofs.Outcome
import ContractSync.Proofs.Rust.Reader

/-!
# Nodes in an arena

A node stands in a place of an arena if the slot there is its own and its parts stand in the places that the
slot names, each with the place of the node as its parent (`Arena.Holds`). The places come from some region;
**what is written outside of the region does not matter** (`Holds.frame`).

Nodes are hung on the node in a place if new slots hold them and only the children of that node change
(`Arena.Hung`). Hanging more nodes on it, attaching attributes to a new node (`Led.attach`) and adding those
that nothing follows (`Led.trail`) are the steps by which everything is put into the arena.
-/

namespace ContractSync.Rust.Arena

variable {arena arena' : Arena} {region region' : Nat → Prop} {parent : Option Nat}

/-! ### Nodes in their places -/

mutual

/-- The node stands in the place, and its parts in places of the region. -/
def Holds (arena : Arena) (region : Nat → Prop) (parent : Option Nat) : Node → Nat → Prop
  | .mk shape start itemStart stop parts, place =>
    region place ∧ ∃ places,
      arena[place]? = some ⟨shape, start, itemStart, stop, parent, places⟩ ∧
        HoldsAll arena region (some place) parts places

/-- The nodes stand in the places. -/
def HoldsAll (arena : Arena) (region : Nat → Prop) (parent : Option Nat) :
    List Node → List Nat → Prop
  | [], [] => True
  | n :: rest, place :: places =>
    Holds arena region parent n place ∧ HoldsAll arena region parent rest places
  | _, _ => False

end

mutual

/-- What happens outside of the region does not matter. -/
theorem Holds.frame {parent : Option Nat} {n : Node} {place : Nat} (h : Holds arena region parent n place)
    (hstays : ∀ i slot, region i → arena[i]? = some slot → region' i ∧ arena'[i]? = some slot) :
    Holds arena' region' parent n place := by
  obtain ⟨shape, start, itemStart, stop, parts⟩ := n
  obtain ⟨hplace, places, hslot, hparts⟩ := h
  obtain ⟨hplace', hslot'⟩ := hstays place _ hplace hslot
  exact ⟨hplace', places, hslot', hparts.frame hstays⟩

theorem HoldsAll.frame {parent : Option Nat} {nodes : List Node} {places : List Nat}
    (h : HoldsAll arena region parent nodes places)
    (hstays : ∀ i slot, region i → arena[i]? = some slot → region' i ∧ arena'[i]? = some slot) :
    HoldsAll arena' region' parent nodes places := by
  match nodes, places with
  | [], [] => trivial
  | n :: rest, place :: places => exact ⟨h.1.frame hstays, h.2.frame hstays⟩

end

theorem HoldsAll.mono {nodes : List Node} {places : List Nat}
    (h : HoldsAll arena region parent nodes places) (hregion : ∀ i, region i → region' i) :
    HoldsAll arena region' parent nodes places := h.frame fun i _ hi hslot => ⟨hregion i hi, hslot⟩

theorem HoldsAll.append {a b : List Node} {places more : List Nat}
    (ha : HoldsAll arena region parent a places) (hb : HoldsAll arena region parent b more) :
    HoldsAll arena region parent (a ++ b) (places ++ more) := by
  induction a generalizing places with
  | nil =>
    match places with
    | [] => exact hb
  | cons n a ih =>
    match places with
    | place :: places => exact ⟨ha.1, ih ha.2⟩

theorem Holds.inside {n : Node} {place : Nat} (h : Holds arena region parent n place) :
    region place ∧ ∃ slot, arena[place]? = some slot ∧ slot.start = n.start := by
  obtain ⟨shape, start, itemStart, stop, parts⟩ := n
  obtain ⟨hplace, places, hslot, -⟩ := h
  exact ⟨hplace, _, hslot, rfl⟩

theorem HoldsAll.inside {nodes : List Node} {places : List Nat}
    (h : HoldsAll arena region parent nodes places) :
    ∀ place ∈ places, region place ∧ place < arena.length := by
  induction places generalizing nodes with
  | nil => exact List.forall_mem_nil _
  | cons place places ih =>
    match nodes with
    | n :: rest =>
      obtain ⟨hplace, slot, hslot, -⟩ := h.1.inside
      exact List.forall_mem_cons.mpr ⟨⟨hplace, (List.getElem?_eq_some_iff.mp hslot).1⟩, ih h.2⟩

/-- Where the first of the nodes starts stands in the first of the places. -/
theorem HoldsAll.head {nodes : List Node} {places : List Nat}
    (h : HoldsAll arena region parent nodes places) :
    (places.head?.bind (arena[·]?)).map Slot.start = nodes.head?.map Node.start := by
  match nodes, places with
  | [], [] => rfl
  | n :: rest, place :: places =>
    obtain ⟨-, slot, hslot, hstart⟩ := h.1.inside
    rw [List.head?_cons, Option.bind_some, hslot, Option.map_some, hstart]
    rfl

/-! ### Writing slots -/

theorem update_eq {place : Nat} (h : place < arena.length) (f : Slot → Slot) :
    ∃ arena', arena.update place f = .ok arena' ∧ arena'.length = arena.length ∧
      arena'[place]? = arena[place]?.map f ∧ ∀ i ≠ place, arena'[i]? = arena[i]? := by
  refine ⟨_, if_pos h, List.length_modify .., ?_, fun i hi => ?_⟩
  · rw [List.getElem?_modify_eq]
    rfl
  · exact List.getElem?_modify_ne f _ (Ne.symm hi)

/-- The slots in the places have another parent. -/
theorem adopt_eq (owner : Nat) {places : List Nat} (h : ∀ place ∈ places, place < arena.length) :
    ∃ arena', adopt owner places arena = .ok arena' ∧ arena'.length = arena.length ∧
      (∀ i ∈ places, arena'[i]? = arena[i]?.map fun s => { s with parent := some owner }) ∧
        ∀ i ∉ places, arena'[i]? = arena[i]? := by
  induction places generalizing arena with
  | nil => exact ⟨arena, rfl, rfl, List.forall_mem_nil _, fun _ _ => rfl⟩
  | cons place places ih =>
    obtain ⟨hplace, hplaces⟩ := List.forall_mem_cons.mp h
    obtain ⟨first, hfirst, hlength, hself, hother⟩ :=
      update_eq hplace fun s => { s with parent := some owner }
    obtain ⟨arena', harena, hlength', hin, hout⟩ := ih (hlength.symm ▸ hplaces)
    refine ⟨arena', by rw [adopt, hfirst]; exact harena, hlength'.trans hlength, fun i hi => ?_,
      fun i hi => ?_⟩
    · by_cases hmem : i ∈ places
      · rw [hin i hmem]
        by_cases heq : i = place
        · rw [heq, hself, Option.map_map]
          rfl
        · rw [hother i heq]
      · obtain rfl : i = place := (List.mem_cons.mp hi).resolve_right hmem
        rw [hout i hmem, hself]
    · rw [List.mem_cons, not_or] at hi
      rw [hout i hi.2, hother i hi.1]

/-- The slots in the places have another parent, which has the places behind its children. -/
theorem trail_eq {owner : Nat} {places : List Nat} (howner : owner < arena.length)
    (h : ∀ place ∈ places, place < arena.length ∧ owner < place) :
    ∃ arena', trail owner places arena = .ok arena' ∧ arena'.length = arena.length ∧
      arena'[owner]? = arena[owner]?.map (fun s => { s with children := s.children ++ places }) ∧
      (∀ i ∈ places, arena'[i]? = arena[i]?.map fun s => { s with parent := some owner }) ∧
        ∀ i ∉ places, i ≠ owner → arena'[i]? = arena[i]? := by
  induction places generalizing arena with
  | nil =>
    refine ⟨arena, rfl, rfl, ?_, List.forall_mem_nil _, fun _ _ _ => rfl⟩
    simp
  | cons place places ih =>
    obtain ⟨⟨hplace, hne⟩, hplaces⟩ := List.forall_mem_cons.mp h
    obtain ⟨first, hfirst, hlength, hself, hother⟩ :=
      update_eq hplace fun s => { s with parent := some owner }
    obtain ⟨second, hsecond, hlength', hself', hother'⟩ :=
      update_eq (hlength.symm ▸ howner) fun s => { s with children := s.children ++ [place] }
    have hsame : second.length = arena.length := hlength'.trans hlength
    obtain ⟨arena', harena, hlength'', hkids, hin, hout⟩ := ih (hsame.symm ▸ howner) (hsame.symm ▸ hplaces)
    refine ⟨arena', ?_, hlength''.trans hsame, ?_, fun i hi => ?_, fun i hi hi' => ?_⟩
    · rw [trail, hfirst, bind_ok, hsecond]
      exact harena
    · rw [hkids, hself', hother owner (Nat.ne_of_lt hne), Option.map_map]
      simp [Function.comp_def]
    · by_cases hmem : i ∈ places
      · rw [hin i hmem, hother' i (Nat.ne_of_gt (hplaces i hmem).2)]
        by_cases heq : i = place
        · rw [heq, hself, Option.map_map]
          rfl
        · rw [hother i heq]
      · obtain rfl : i = place := (List.mem_cons.mp hi).resolve_right hmem
        rw [hout i hmem (Nat.ne_of_gt hne), hother' i (Nat.ne_of_gt hne), hself]
    · rw [List.mem_cons, not_or] at hi
      rw [hout i hi.2 hi', hother' i hi', hother i hi.1]

/-- The places stand in front of the children of the slot, which starts with the first of them. -/
theorem attach_eq {place : Nat} {places : List Nat} {slot : Slot} (hslot : arena[place]? = some slot)
    (h : ∀ p ∈ places, p < place) :
    ∃ arena', arena.attach place places = .ok arena' ∧
      arena'[place]? = some { slot with
        start := ((places.head?.bind (arena[·]?)).map Slot.start).getD slot.start
        children := places ++ slot.children } ∧
      (∀ i ∈ places, arena'[i]? = arena[i]?.map fun s => { s with parent := some place }) ∧
        ∀ i ∉ places, i ≠ place → arena'[i]? = arena[i]? := by
  have hlt := (List.getElem?_eq_some_iff.mp hslot).1
  have hplace : place ∉ places := fun hmem => Nat.lt_irrefl _ (h place hmem)
  obtain ⟨first, hfirst, hlength, hin, hout⟩ :=
    adopt_eq place fun p hp => Nat.lt_trans (h p hp) hlt
  obtain ⟨second, hsecond, hlength', hself, hother⟩ := update_eq (hlength.symm ▸ hlt)
    fun s => { s with children := places ++ s.children }
  rw [hout place hplace, hslot, Option.map_some] at hself
  rw [Arena.attach, hfirst, bind_ok, hsecond, bind_ok]
  match places with
  | [] =>
    refine ⟨second, rfl, hself, List.forall_mem_nil _, fun i _ hi => ?_⟩
    rw [hother i hi, hout i List.not_mem_nil]
  | front :: behind =>
    have hfront := h front List.mem_cons_self
    obtain ⟨found, hfound⟩ : ∃ found, arena[front]? = some found :=
      ⟨_, List.getElem?_eq_getElem (Nat.lt_trans hfront hlt)⟩
    have hget : second.get front = .ok { found with parent := some place } := by
      rw [get, hother front (Nat.ne_of_lt hfront), hin front List.mem_cons_self, hfound]
      rfl
    obtain ⟨last, hlast, -, hself', hother'⟩ := update_eq (hlength'.symm ▸ hlength.symm ▸ hlt)
      fun s => { s with start := found.start }
    dsimp only
    rw [hget]
    refine ⟨last, hlast, ?_, fun i hi => ?_, fun i hi hi' => ?_⟩
    · rw [hself', hself, List.head?_cons, Option.bind_some, hfound]
      rfl
    · have hne := Nat.ne_of_lt (h i hi)
      rw [hother' i hne, hother i hne, hin i hi]
    · rw [hother' i hi', hother i hi', hout i hi]

/-- Leaves have another parent if their slots have. -/
theorem HoldsAll.adopt {owner : Nat} {nodes : List Node} {places : List Nat}
    (h : HoldsAll arena region parent nodes places) (hleaf : ∀ n ∈ nodes, n.children = [])
    (hin : ∀ i ∈ places, arena'[i]? = arena[i]?.map fun s => { s with parent := some owner }) :
    HoldsAll arena' region (some owner) nodes places := by
  induction nodes generalizing places with
  | nil =>
    match places with
    | [] => trivial
  | cons n rest ih =>
    match places with
    | place :: places =>
      obtain ⟨shape, start, itemStart, stop, parts⟩ := n
      obtain ⟨hn, hrest⟩ := List.forall_mem_cons.mp hleaf
      obtain ⟨hplace, hplaces⟩ := List.forall_mem_cons.mp hin
      obtain ⟨⟨hregion, kids, hslot, hkids⟩, hmore⟩ := h
      cases hn
      match kids with
      | [] => exact ⟨⟨hregion, [], by rw [hplace, hslot]; rfl, trivial⟩, ih hmore hrest hplaces⟩

/-! ### Nodes hung on another one -/

/-- The nodes are hung on the one in the place: new slots hold them, and nothing else changes. -/
structure Hung (arena : Arena) (owner : Nat) (nodes : List Node) (arena' : Arena) : Prop where
  grows : arena.length ≤ arena'.length
  other : ∀ i < arena.length, i ≠ owner → arena'[i]? = arena[i]?
  held : ∀ slot, arena[owner]? = some slot → ∃ places,
    arena'[owner]? = some { slot with children := slot.children ++ places } ∧
      HoldsAll arena' (arena.length ≤ ·) (some owner) nodes places

variable {owner : Nat} {a b nodes : List Node} {arena'' : Arena}

theorem Hung.refl (arena : Arena) (owner : Nat) : Hung arena owner [] arena :=
  ⟨Nat.le_refl _, fun _ _ _ => rfl, fun slot hslot => ⟨[], by rw [hslot, List.append_nil], trivial⟩⟩

/-- More nodes are hung on the same one. -/
theorem Hung.trans (h : Hung arena owner a arena') (h' : Hung arena' owner b arena'')
    (howner : owner < arena.length) : Hung arena owner (a ++ b) arena'' := by
  refine ⟨Nat.le_trans h.grows h'.grows, fun i hi hne => ?_, fun slot hslot => ?_⟩
  · rw [h'.other i (Nat.lt_of_lt_of_le hi h.grows) hne, h.other i hi hne]
  · obtain ⟨places, hown, hheld⟩ := h.held slot hslot
    obtain ⟨more, hown', hheld'⟩ := h'.held _ hown
    refine ⟨places ++ more, by rw [hown', List.append_assoc], ?_⟩
    refine (hheld.frame fun i found hi hfound => ⟨hi, ?_⟩).append
      (hheld'.mono fun i hi => Nat.le_trans h.grows hi)
    rw [h'.other i (List.getElem?_eq_some_iff.mp hfound).1 (by omega)]
    exact hfound

/-! ### Attributes -/

/-- Attributes are read: inner ones are hung on the node in the place, outer ones stand in other places. -/
structure Led (arena : Arena) (owner : Nat) (inner outer : List Node) (places : List Nat)
    (arena' : Arena) : Prop where
  grows : arena.length ≤ arena'.length
  other : ∀ i < arena.length, i ≠ owner → arena'[i]? = arena[i]?
  held : ∀ slot, arena[owner]? = some slot → ∃ beside,
    arena'[owner]? = some { slot with children := slot.children ++ beside } ∧
      HoldsAll arena' (fun i => arena.length ≤ i ∧ i ∉ places) (some owner) inner beside
  loose : HoldsAll arena' (arena.length ≤ ·) none outer places
  leaves : ∀ n ∈ outer, n.children = []

variable {inner outer parts : List Node} {places : List Nat} {shape : Shape} {itemStart stop place : Nat}

theorem Led.refl (arena : Arena) (owner : Nat) : Led arena owner [] [] [] arena :=
  ⟨Nat.le_refl _, fun _ _ _ => rfl, fun slot hslot => ⟨[], by rw [hslot, List.append_nil], trivial⟩,
    trivial, List.forall_mem_nil _⟩

/-- Attributes behind nodes that are hung. -/
theorem Hung.led (h : Hung arena owner a arena') (h' : Led arena' owner inner outer places arena'')
    (howner : owner < arena.length) : Led arena owner (a ++ inner) outer places arena'' := by
  have hinside := h'.loose.inside
  refine ⟨Nat.le_trans h.grows h'.grows, fun i hi hne => ?_, fun slot hslot => ?_,
    h'.loose.mono fun i hi => Nat.le_trans h.grows hi, h'.leaves⟩
  · rw [h'.other i (Nat.lt_of_lt_of_le hi h.grows) hne, h.other i hi hne]
  · obtain ⟨found, hown, hheld⟩ := h.held slot hslot
    obtain ⟨beside, hown', hheld'⟩ := h'.held _ hown
    refine ⟨found ++ beside, by rw [hown', List.append_assoc],
      (hheld.frame fun i slot hi hslot => ?_).append
        (hheld'.mono fun i hi => ⟨Nat.le_trans h.grows hi.1, hi.2⟩)⟩
    have hlt := (List.getElem?_eq_some_iff.mp hslot).1
    refine ⟨⟨hi, fun hmem => Nat.not_lt.mpr (hinside i hmem).1 hlt⟩, ?_⟩
    rw [h'.other i hlt (by omega)]
    exact hslot

/-- A slot that nothing names. -/
theorem hung_orphan (arena : Arena) (owner : Nat) (slot : Slot) : Hung arena owner [] (arena ++ [slot]) := by
  refine ⟨by rw [List.length_append]; exact Nat.le_add_right .., fun i hi _ => List.getElem?_append_left hi,
    fun found hfound => ⟨[], ?_, trivial⟩⟩
  rw [List.getElem?_append_left (List.getElem?_eq_some_iff.mp hfound).1, hfound, List.append_nil]

/-- An outer attribute in front of others. -/
theorem Led.cons_outer (h : Led (arena ++ [⟨shape, itemStart, itemStart, stop, none, []⟩]) owner inner outer
    places arena') (howner : owner < arena.length) :
    Led arena owner inner (.mk shape itemStart itemStart stop [] :: outer) (arena.length :: places)
      arena' := by
  have hlength : (arena ++ [Slot.mk shape itemStart itemStart stop none []]).length = arena.length + 1 :=
    List.length_append
  obtain ⟨hgrows, hother, hheld, hloose, hleaves⟩ := h
  rw [hlength] at hgrows hother hheld hloose
  refine ⟨Nat.le_of_succ_le hgrows, fun i hi hne => ?_, fun slot hslot => ?_, ⟨⟨Nat.le_refl _, [], ?_, trivial⟩,
    hloose.mono fun i hi => Nat.le_of_succ_le hi⟩, List.forall_mem_cons.mpr ⟨rfl, hleaves⟩⟩
  · rw [hother i (Nat.lt_succ_of_lt hi) hne, List.getElem?_append_left hi]
  · obtain ⟨beside, hown, hbeside⟩ := hheld slot (by rw [List.getElem?_append_left howner, hslot])
    refine ⟨beside, hown, hbeside.mono fun i hi => ⟨Nat.le_of_succ_le hi.1, fun hmem => ?_⟩⟩
    rcases List.mem_cons.mp hmem with rfl | hmem
    · exact Nat.lt_irrefl _ hi.1
    · exact hi.2 hmem
  · rw [hother _ (Nat.lt_succ_self _) (Nat.ne_of_gt howner), List.getElem?_concat_length]

/-- Outer attributes may be left where they are. -/
theorem Led.hung (h : Led arena owner inner outer places arena') : Hung arena owner inner arena' :=
  ⟨h.grows, h.other, fun slot hslot =>
    let ⟨beside, hown, hheld⟩ := h.held slot hslot
    ⟨beside, hown, hheld.mono fun _ hi => hi.1⟩⟩

/-- Attributes that nothing follows are hung on the node as well. -/
theorem Led.trail (h : Led arena owner inner outer places arena') (howner : owner < arena.length) :
    ∃ arena'', Arena.trail owner places arena' = .ok arena'' ∧
      Hung arena owner (inner ++ outer) arena'' := by
  have hregion := h.loose.inside
  obtain ⟨arena'', harena, hlength, hkids, hin, hout⟩ :=
    trail_eq (Nat.lt_of_lt_of_le howner h.grows) fun p hp =>
      ⟨(hregion p hp).2, Nat.lt_of_lt_of_le howner (hregion p hp).1⟩
  refine ⟨arena'', harena, by rw [hlength]; exact h.grows, fun i hi hne => ?_, fun slot hslot => ?_⟩
  · have hnot : i ∉ places := fun hmem => Nat.not_lt.mpr (hregion i hmem).1 hi
    rw [hout i hnot hne, h.other i hi hne]
  · obtain ⟨beside, hown, hheld⟩ := h.held slot hslot
    refine ⟨beside ++ places, by rw [hkids, hown]; simp, ?_⟩
    refine (hheld.frame fun i found hi hfound => ⟨hi.1, ?_⟩).append (h.loose.adopt h.leaves hin)
    rw [hout i hi.2 (by omega)]
    exact hfound

/-- A new node is hung on the one in the place, in a place of its own, with parts behind that place. -/
structure Placed (arena : Arena) (owner : Nat) (shape : Shape) (itemStart stop : Nat) (parts : List Node)
    (place : Nat) (arena' : Arena) : Prop where
  new : arena.length ≤ place
  other : ∀ i < arena.length, i ≠ owner → arena'[i]? = arena[i]?
  held : ∀ slot, arena[owner]? = some slot →
    arena'[owner]? = some { slot with children := slot.children ++ [place] }
  self : ∃ places, arena'[place]? = some ⟨shape, itemStart, itemStart, stop, some owner, places⟩ ∧
    HoldsAll arena' (place < ·) (some place) parts places

theorem Placed.lt (h : Placed arena owner shape itemStart stop parts place arena') :
    place < arena'.length := by
  obtain ⟨_, hslot, -⟩ := h.self
  exact (List.getElem?_eq_some_iff.mp hslot).1

/-- A node without parts is added. -/
theorem add_eq (howner : owner < arena.length) (shape : Shape) (itemStart stop : Nat) :
    ∃ arena', arena.add { shape, start := itemStart, itemStart, stop } (some owner) =
        .ok (arena.length, arena') ∧
      Placed arena owner shape itemStart stop [] arena.length arena' := by
  obtain ⟨arena', harena, hlength, hself, hother⟩ :=
    update_eq (show owner < (arena ++ [Slot.mk shape itemStart itemStart stop (some owner) []]).length by
      rw [List.length_append]; exact Nat.lt_add_right 1 howner)
      fun s => { s with children := s.children ++ [arena.length] }
  refine ⟨arena', ?_, Nat.le_refl _, fun i hi hne => ?_, fun slot hslot => ?_, [], ?_, trivial⟩
  · rw [add]
    show (do let found ← Arena.update _ _ _; pure (arena.length, found) : Except Halt _) = _
    rw [harena]
    rfl
  · rw [hother i hne, List.getElem?_append_left hi]
  · rw [hself, List.getElem?_append_left howner, hslot]
    rfl
  · rw [hother _ (Nat.ne_of_gt howner), List.getElem?_concat_length]

/-- A new node is hung on the one in the place. -/
theorem Placed.hung (h : Placed arena owner shape itemStart stop parts place arena') :
    Hung arena owner [Node.mk shape itemStart itemStart stop parts] arena' := by
  have hnew := h.new
  obtain ⟨places, hslot, hparts⟩ := h.self
  refine ⟨Nat.le_of_lt (Nat.lt_of_le_of_lt hnew h.lt), h.other, fun slot hslot' => ⟨[place],
    h.held slot hslot', ?_⟩⟩
  exact ⟨⟨hnew, places, hslot, hparts.mono fun i hi => by omega⟩, trivial⟩

/-- The slot of a new node is written again. -/
theorem Placed.update {shape' : Shape} {stop' : Nat} {f : Slot → Slot}
    (h : Placed arena owner shape itemStart stop parts place arena') (howner : owner < arena.length)
    (hf : ∀ places, f ⟨shape, itemStart, itemStart, stop, some owner, places⟩ =
      ⟨shape', itemStart, itemStart, stop', some owner, places⟩) :
    ∃ arena'', arena'.update place f = .ok arena'' ∧
      Placed arena owner shape' itemStart stop' parts place arena'' := by
  obtain ⟨arena'', harena, -, hself, hother⟩ := update_eq h.lt f
  obtain ⟨places, hslot, hparts⟩ := h.self
  have hnew := h.new
  refine ⟨arena'', harena, hnew, fun i hi hne => ?_, fun slot hslot => ?_, places, ?_, ?_⟩
  · rw [hother i (by omega), h.other i hi hne]
  · rw [hother owner (by omega), h.held slot hslot]
  · rw [hself, hslot, Option.map_some, hf]
  · refine hparts.frame fun i found hi hfound => ⟨hi, ?_⟩
    rw [hother i (Nat.ne_of_gt hi)]
    exact hfound

/-- More parts are hung on a new node. -/
theorem Placed.hang {more : List Node} (h : Placed arena owner shape itemStart stop parts place arena')
    (hmore : Hung arena' place more arena'') (howner : owner < arena.length) :
    Placed arena owner shape itemStart stop (parts ++ more) place arena'' := by
  obtain ⟨places, hslot, hparts⟩ := h.self
  have hnew := h.new
  have hlt := h.lt
  refine ⟨hnew, fun i hi hne => ?_, fun slot hslot => ?_, ?_⟩
  · rw [hmore.other i (by omega) (by omega), h.other i hi hne]
  · rw [hmore.other owner (by omega) (by omega), h.held slot hslot]
  · obtain ⟨found, hown, hheld⟩ := hmore.held _ hslot
    refine ⟨places ++ found, hown, (hparts.frame fun i slot hi hslot => ⟨hi, ?_⟩).append
      (hheld.mono fun i hi => Nat.lt_of_lt_of_le hlt hi)⟩
    rw [hmore.other i (List.getElem?_eq_some_iff.mp hslot).1 (Nat.ne_of_gt hi)]
    exact hslot

/-- **Attributes are attached to the new node behind them.** -/
theorem Led.attach (h : Led arena owner inner outer places arena') (howner : owner < arena.length)
    (hplaced : Placed arena' owner shape itemStart stop parts place arena'') :
    ∃ final, arena''.attach place places = .ok final ∧
      Hung arena owner (inner ++ [.mk shape ((outer.head?.map Node.start).getD itemStart) itemStart stop
        (outer ++ parts)]) final := by
  have hinside := h.loose.inside
  have hgrows := h.grows
  have hnew := hplaced.new
  obtain ⟨kids, hslot, hparts⟩ := hplaced.self
  have hold : ∀ p ∈ places, arena''[p]? = arena'[p]? := fun p hp => by
    have := hinside p hp
    exact hplaced.other p this.2 (by omega)
  obtain ⟨final, hfinal, hself, hin, hout⟩ := attach_eq hslot fun p hp =>
    Nat.lt_of_lt_of_le (hinside p hp).2 hnew
  have hhead : (places.head?.bind (arena''[·]?)).map Slot.start = outer.head?.map Node.start := by
    rw [← h.loose.head]
    cases places with
    | nil => rfl
    | cons front behind => rw [List.head?_cons, Option.bind_some, Option.bind_some, hold front List.mem_cons_self]
  rw [hhead] at hself
  have hlt : place < final.length := (List.getElem?_eq_some_iff.mp hself).1
  refine ⟨final, hfinal, by omega, fun i hi hne => ?_, fun slot hslot => ?_⟩
  · have hnot : i ∉ places := fun hmem => Nat.not_lt.mpr (hinside i hmem).1 hi
    rw [hout i hnot (by omega), hplaced.other i (by omega) hne, h.other i hi hne]
  · obtain ⟨beside, hown, hheld⟩ := h.held slot hslot
    have hnot : owner ∉ places := fun hmem => Nat.not_lt.mpr (hinside owner hmem).1 howner
    refine ⟨beside ++ [place], ?_, ?_⟩
    · rw [hout owner hnot (by omega), hplaced.held _ hown, List.append_assoc]
    refine (hheld.frame fun i found hi hfound => ⟨hi.1, ?_⟩).append
      ⟨⟨Nat.le_trans hgrows hnew, places ++ kids, hself, ?_⟩, trivial⟩
    · have hlt := (List.getElem?_eq_some_iff.mp hfound).1
      rw [hout i hi.2 (by omega), hplaced.other i hlt (by omega)]
      exact hfound
    refine (h.loose.adopt h.leaves fun p hp => ?_).append
      (hparts.frame fun i found hi hfound => ⟨by omega, ?_⟩)
    · rw [hin p hp, hold p hp]
    · have hnot : i ∉ places := fun hmem => by
        have := (hinside i hmem).2
        omega
      rw [hout i hnot (Nat.ne_of_gt hi)]
      exact hfound

end ContractSync.Rust.Arena
