import ModuleCompiler.Proofs.Linking

/-!
Moving entities under another parent. All of them are unlinked before the first is linked again, so
what lies above the destination is looked at in a forest with fewer links. This hides no circle: of
the moved entities above the destination the nearest stays above it.
-/

namespace ModuleCompiler

theorem Forest.getD_lengthen (added : List Entity) (old : Option (List Entity)) :
    (lengthen added old).getD [] = old.getD [] ++ added := by
  cases old with
  | some list => rfl
  | none => cases added <;> rfl

namespace Store

variable {s t u : Store} {moved : List Entity} {destination : Entity}

/-- The store `t` is `s` with some entities moved under `destination`, whose list they now end. No
list is empty. -/
structure Moved (s : Store) (moved : List Entity) (destination : Entity) (t : Store) : Prop where
  linksOnly : LinksOnly s t
  received : ∀ list, s.children destination = .ok list →
    t.children destination = .ok (list.filter (· ∉ moved) ++ moved)
  elsewhere : ∀ id list, id ≠ destination → s.children id = .ok list →
    t.children id = .ok (list.filter (· ∉ moved))
  dropped : ∀ id, t.children id = .ok [] → t.component? .children id = none
  named : ∀ id ∈ moved, t.parent? id = .ok (some destination)
  others : ∀ id, id ∉ moved → t.parent? id = s.parent? id

/-- Entities that were unlinked can be linked under the destination exactly if none of them was the
destination or above it. -/
theorem Freed.linkable_iff (h : Freed s moved u) (halive : ∀ id ∈ moved, s.isValid id) :
    (∀ id ∈ moved, u.Linkable destination id) ↔
      ∀ id ∈ moved, id ≠ destination ∧ ¬ Above s.up destination id := by
  constructor
  · intro hlink id hid
    refine ⟨(hlink id hid).ne, fun habove => ?_⟩
    -- The way from the destination up to the nearest moved entity has no moved one inside, so
    -- nothing of it was cut.
    have hout : destination ∉ moved := fun hin => (hlink destination hin).ne rfl
    obtain ⟨nearest, hnearest, hway⟩ := Forest.exists_above_orphan habove hid hout
    rw [← h.links.up_eq] at hway
    exact (hlink nearest hnearest).notAbove hway
  · intro hapart id hid
    refine ⟨(hapart id hid).1, ?_, ?_, ?_⟩
    · rw [h.linksOnly.isValid_eq]
      exact halive id hid
    · rw [h.links.up_eq, Forest.orphan, if_pos hid]
    · rw [h.links.up_eq]
      intro habove
      exact (hapart id hid).2 (habove.of_fewer (Forest.orphan_fewer moved))

/-- The lists and parents of the two stores, with no list that is empty, say all that a move is. -/
theorem LinksOnly.moved_of_links (h : LinksOnly s t) (hlinked : t.Linked)
    (hlinks : HasLinks (Settled.adopt (Forest.orphan s.up moved) destination moved)
      (Function.update (Forest.prune s.down moved) destination
        (Forest.lengthen moved (Forest.prune s.down moved destination))) t)
    (halive : ∀ id ∈ moved, s.isValid id) : s.Moved moved destination t := by
  have hlist : ∀ id, t.childList id =
      if id = destination then (s.childList id).filter (· ∉ moved) ++ moved
      else (s.childList id).filter (· ∉ moved) := by
    intro id
    unfold childList
    rw [hlinks.down_eq, Function.update_apply]
    split
    · rename_i hid
      rw [Forest.getD_lengthen, Forest.getD_prune, hid]
    · exact Forest.getD_prune moved id
  have hup : ∀ id, t.up id = if id ∈ moved then some destination else s.up id := by
    intro id
    rw [hlinks.up_eq]
    by_cases hid : id ∈ moved <;> simp [Settled.adopt, Forest.orphan, hid]
  have hvalid : ∀ {id}, s.isValid id → t.isValid id := fun {id} hid => by rwa [h.isValid_eq]
  refine ⟨h, ?_, ?_, ?_, ?_, ?_⟩
  · intro list hold
    obtain ⟨hid, rfl⟩ := children_eq_ok.mp hold
    rw [children_of_isValid (hvalid hid), hlist, if_pos rfl]
  · intro id list hne hold
    obtain ⟨hid, rfl⟩ := children_eq_ok.mp hold
    rw [children_of_isValid (hvalid hid), hlist, if_neg hne]
  · intro id hnil
    exact hlinked.down_eq_none (children_eq_ok.mp hnil).2
  · intro id hid
    rw [parent?_of_isValid (hvalid (halive id hid)), hup, if_pos hid]
  · intro id hid
    by_cases hid' : s.isValid id
    · rw [parent?_of_isValid (hvalid hid'), parent?_of_isValid hid', hup, if_neg hid]
    · rw [parent?_of_not_isValid (by rwa [h.isValid_eq]), parent?_of_not_isValid hid']

/-- A move that is carried out had everything it needs, and leaves what it should. -/
theorem Anchored.transferChildren_ok (h : s.Anchored) {a : Unit}
    (hrun : transferChildren moved destination s = .ok a t) :
    (s.isValid destination ∧ (∀ id ∈ moved, s.isValid id) ∧ moved.Nodup ∧
      ∀ id ∈ moved, id ≠ destination ∧ ¬ Above s.up destination id) ∧
    s.Moved moved destination t := by
  obtain ⟨_, u, hremove, hadd⟩ := bind_eq_ok hrun
  have halive := isValid_of_removeChildren hremove
  obtain ⟨u', hremove', hu, hfreed⟩ := h.removeChildren_run halive
  obtain ⟨-, rfl⟩ := EStateM.Result.ok.inj (hremove.symm.trans hremove')
  have hdestination : u.isValid destination := by
    by_contra hstale
    rw [addChildren_stale moved hstale] at hadd
    cases hadd
  rcases hu.addChildren_outcome hdestination moved with
    ⟨hnodup, hlink, hdone⟩ | ⟨earlier, child, rest, e, -, -, -, -, -, hfailed⟩
  · have hsame : LinksOnly s t := hfreed.linksOnly.trans
      (((pointwise_linksOnly u).addChildren destination moved).ok (.refl u) hadd)
    have hlinked : t.Linked := (linked_addChildren destination moved).ok hu.toLinked hadd
    have hlinks := hasLinks_lengthened hu.sound hdestination fun id hid => (hlink id hid).alive
    obtain ⟨-, rfl⟩ := EStateM.Result.ok.inj (hadd.symm.trans hdone)
    rw [hfreed.links.up_eq, hfreed.links.down_eq] at hlinks
    rw [hfreed.linksOnly.isValid_eq] at hdestination
    exact ⟨⟨hdestination, halive, hnodup, (hfreed.linkable_iff halive).mp hlink⟩,
      hsame.moved_of_links hlinked hlinks halive⟩
  · rw [hfailed] at hadd
    cases hadd

theorem Anchored.transferChildren_run (h : s.Anchored) (hdestination : s.isValid destination)
    (halive : ∀ id ∈ moved, s.isValid id) (hnodup : moved.Nodup)
    (hapart : ∀ id ∈ moved, id ≠ destination ∧ ¬ Above s.up destination id) :
    ∃ t, transferChildren moved destination s = .ok () t := by
  obtain ⟨u, hremove, hu, hfreed⟩ := h.removeChildren_run halive
  rw [← hfreed.linksOnly.isValid_eq] at hdestination
  have hlink := (hfreed.linkable_iff halive).mpr hapart
  rcases hu.addChildren_outcome hdestination moved with
    ⟨-, -, hdone⟩ | ⟨earlier, child, rest, e, hsplit, -, hrefusal, -⟩
  · exact ⟨_, (bind_run_ok hremove).trans hdone⟩
  · have hchild : u.Linkable destination child := hlink child (by simp [hsplit])
    rw [hsplit] at hnodup
    have hout : child ∉ earlier :=
      fun hin => (List.nodup_append.mp hnodup).2.2 child hin child (by simp) rfl
    exact absurd hrefusal (hchild.not_refusal hout)

/-- In a store with agreeing links entities are moved under a destination exactly if it and they are
alive, none of them is named twice and none is the destination or lies above it. The destination
then has its old children that were not moved and after them the moved ones in their order; the
other lists lose the moved entities and are dropped where that leaves none; the moved entities name
the destination, and nothing else changes. -/
theorem transfer_iff_apart (hs : s.Consistent) (moved : List Entity) (destination : Entity) :
    ((∃ t, transferChildren moved destination s = .ok () t) ↔
      s.isValid destination ∧ (∀ id ∈ moved, s.isValid id) ∧ moved.Nodup ∧
        ∀ id ∈ moved, id ≠ destination ∧ ¬ Above s.up destination id) ∧
    ∀ t, transferChildren moved destination s = .ok () t → s.Moved moved destination t := by
  have h := hs.anchored
  refine ⟨⟨?_, ?_⟩, fun t hrun => (h.transferChildren_ok hrun).2⟩
  · rintro ⟨t, hrun⟩
    exact (h.transferChildren_ok hrun).1
  · rintro ⟨hdestination, halive, hnodup, hapart⟩
    exact h.transferChildren_run hdestination halive hnodup hapart

/-- Two families, of which the second lies in the first, and an entity on its own. -/
def familiesRun : List Request :=
  [.create, .create, .create, .create, .create, .create, .create,
    .edit (.addChildren ⟨0, 0⟩ [⟨1, 0⟩, ⟨2, 0⟩]), .edit (.addChildren ⟨2, 0⟩ [⟨3, 0⟩, ⟨4, 0⟩]),
    .addChild ⟨1, 0⟩ ⟨5, 0⟩]

/-- A child that is there already, the only child of another entity and one without a parent. -/
theorem transfer_iff_apart_families :
    Ast.carriedOut familiesRun = true ∧
    ∃ t, transferChildren [⟨5, 0⟩, ⟨3, 0⟩, ⟨6, 0⟩] ⟨2, 0⟩ (Ast.reached familiesRun).store =
        .ok () t ∧
      t.children ⟨2, 0⟩ = .ok [⟨4, 0⟩, ⟨5, 0⟩, ⟨3, 0⟩, ⟨6, 0⟩] ∧
      t.component? .children ⟨1, 0⟩ = none := by
  have hrun : Ast.carriedOut familiesRun = true := by decide +kernel
  have hreply : (reply (transferChildren [⟨5, 0⟩, ⟨3, 0⟩, ⟨6, 0⟩] ⟨2, 0⟩
      (Ast.reached familiesRun).store)).isOk = true := by decide +kernel
  have hlist : (Ast.reached familiesRun).store.children ⟨2, 0⟩ = .ok [⟨3, 0⟩, ⟨4, 0⟩] := by
    decide +kernel
  have honly : (Ast.reached familiesRun).store.children ⟨1, 0⟩ = .ok [⟨5, 0⟩] := by
    decide +kernel
  obtain ⟨-, hmoved⟩ := transfer_iff_apart (consistent_carriedOut hrun)
    [⟨5, 0⟩, ⟨3, 0⟩, ⟨6, 0⟩] ⟨2, 0⟩
  have hafter := hmoved _ (eq_ok_left hreply)
  exact ⟨hrun, _, eq_ok_left hreply, hafter.received _ hlist,
    hafter.dropped _ (hafter.elsewhere _ _ (by decide) honly)⟩

end Store

end ModuleCompiler
