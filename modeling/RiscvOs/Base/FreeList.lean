import Mathlib

/-!
# LIFO free lists

Each of the resources `U` is held, was given back, or was never used. `alloc` takes the one given
back last, else the least one never used.

* `alloc_spec`: what a successful `alloc` takes.
* `alloc_eq_none_iff`: it fails only when everything is held.
-/

set_option autoImplicit false

namespace RiscvOs

/-- Which resources are held, and which were given back, the last one first. -/
structure FreeList {α : Type} [LinearOrder α] (U : Finset α) where
  held : Finset α
  returned : List α
  nodup : returned.Nodup
  held_subset : held ⊆ U
  returned_subset : ∀ f ∈ returned, f ∈ U ∧ f ∉ held

namespace FreeList

variable {α : Type} [LinearOrder α] {U : Finset α}

/-- Nothing has been used. -/
def new : FreeList U := ⟨∅, [], List.nodup_nil, Finset.empty_subset U, by simp⟩

variable (s : FreeList U)

/-- The resources never used. -/
def unused : Finset α := U \ (s.held ∪ s.returned.toFinset)

theorem mem_unused {f : α} : f ∈ s.unused ↔ f ∈ U ∧ f ∉ s.held ∧ f ∉ s.returned := by
  simp [unused, not_or]

/-- Take a resource. -/
def alloc : Option (α × FreeList U) :=
  match h : s.returned with
  | f :: rest => some (f,
    { held := insert f s.held
      returned := rest
      nodup := (List.nodup_cons.mp (h ▸ s.nodup)).2
      held_subset := Finset.insert_subset (s.returned_subset f (h ▸ List.mem_cons_self)).1
        s.held_subset
      returned_subset := fun g hg => by
        have hgs := s.returned_subset g (h ▸ List.mem_cons_of_mem f hg)
        have hne : g ≠ f := fun he => (List.nodup_cons.mp (h ▸ s.nodup)).1 (he ▸ hg)
        exact ⟨hgs.1, fun hi => (Finset.mem_insert.mp hi).elim hne hgs.2⟩ })
  | [] =>
    if hn : s.unused.Nonempty then
      some (s.unused.min' hn,
        { held := insert (s.unused.min' hn) s.held
          returned := []
          nodup := List.nodup_nil
          held_subset := Finset.insert_subset (s.mem_unused.mp (s.unused.min'_mem hn)).1
            s.held_subset
          returned_subset := fun g hg => absurd hg List.not_mem_nil })
    else none

/-- Give a resource back. -/
def dealloc (f : α) (hf : f ∈ s.held) : FreeList U where
  held := s.held.erase f
  returned := f :: s.returned
  nodup := List.nodup_cons.mpr ⟨fun hr => (s.returned_subset f hr).2 hf, s.nodup⟩
  held_subset := (Finset.erase_subset f s.held).trans s.held_subset
  returned_subset := fun g hg => by
    obtain rfl | hg := List.mem_cons.mp hg
    · exact ⟨s.held_subset hf, Finset.notMem_erase _ _⟩
    · exact ⟨(s.returned_subset g hg).1, fun he =>
        (s.returned_subset g hg).2 (Finset.mem_of_mem_erase he)⟩

/-- `f` is what `alloc` takes, and leaves `s'`. -/
structure Takes (f : α) (s' : FreeList U) : Prop where
  mem : f ∈ U
  not_held : f ∉ s.held
  held : s'.held = insert f s.held
  returned : s'.returned = s.returned.tail
  last : ∀ g rest, s.returned = g :: rest → f = g
  least : s.returned = [] → IsLeast (s.unused : Set α) f

variable {s}

theorem alloc_spec {f : α} {s' : FreeList U} (h : s.alloc = some (f, s')) : s.Takes f s' := by
  rw [alloc] at h
  split at h
  · rename_i g rest hr
    obtain ⟨rfl, rfl⟩ := Prod.mk.inj (Option.some.inj h)
    have hg := s.returned_subset g (hr ▸ List.mem_cons_self)
    refine ⟨hg.1, hg.2, rfl, ?_, fun x _ hx => ?_, fun hx => ?_⟩
    · exact (congrArg List.tail hr).symm
    · exact (List.cons.inj (hr.symm.trans hx)).1
    · cases hr.symm.trans hx
  · rename_i hr
    split_ifs at h with hn
    obtain ⟨rfl, rfl⟩ := Prod.mk.inj (Option.some.inj h)
    have hm := s.mem_unused.mp (s.unused.min'_mem hn)
    refine ⟨hm.1, hm.2.1, rfl, ?_, fun x _ hx => ?_, fun _ => ?_⟩
    · exact (congrArg List.tail hr).symm
    · cases hr.symm.trans hx
    · exact s.unused.isLeast_min' hn

/-- Held by all means returned by none. -/
theorem returned_eq_nil (h : s.held = U) : s.returned = [] := by
  refine List.eq_nil_iff_forall_not_mem.mpr fun f hf => ?_
  have hs := s.returned_subset f hf
  rw [h] at hs
  exact hs.2 hs.1

/-- **Allocation fails only when everything is held.** -/
theorem alloc_eq_none_iff : s.alloc = none ↔ s.held = U := by
  rw [alloc]
  split
  · rename_i g rest hr
    refine ⟨fun h => (by cases h), fun h => ?_⟩
    cases hr.symm.trans (returned_eq_nil h)
  · rename_i hr
    split_ifs with hn
    · refine ⟨fun h => (by cases h), fun h => ?_⟩
      obtain ⟨f, hf⟩ := hn
      have hm := s.mem_unused.mp hf
      rw [h] at hm
      exact absurd hm.1 hm.2.1
    · refine ⟨fun _ => Finset.Subset.antisymm s.held_subset fun f hf => ?_, fun _ => rfl⟩
      by_contra hh
      exact hn ⟨f, s.mem_unused.mpr ⟨hf, hh, hr ▸ List.not_mem_nil⟩⟩

end FreeList

end RiscvOs
