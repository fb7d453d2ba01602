import Mathlib.Data.Set.Finite.Basic
import Mathlib.Logic.Relation
import SchemaCodec.Proofs.Schema.Extraction

/-! # What ordering is stuck on

A listed type needs only types that are listed before it, so no cycle can be reached from it. When a
pass lists nothing, each type that is left needs another one that is left: a cycle can be reached
from every one of them.
-/

namespace SchemaCodec

open Relation

section Cycles

variable {α : Type} {R : α → α → Prop} {a b : α}

/-- Something that leads back to itself can be reached. -/
def LeadsToCycle (R : α → α → Prop) (a : α) : Prop := ∃ b, ReflTransGen R a b ∧ TransGen R b b

theorem exists_leadsToCycle_iff : (∃ a, LeadsToCycle R a) ↔ ∃ a, TransGen R a a := by
  constructor
  · rintro ⟨-, a, -, cycle⟩
    exact ⟨a, cycle⟩
  · rintro ⟨a, cycle⟩
    exact ⟨a, a, .refl, cycle⟩

theorem LeadsToCycle.exists_step (h : LeadsToCycle R a) : ∃ b, R a b ∧ LeadsToCycle R b := by
  obtain ⟨c, path, cycle⟩ := h
  rcases path.cases_head with rfl | ⟨b, step, rest⟩
  · obtain ⟨b, step, rest⟩ := TransGen.head'_iff.mp cycle
    exact ⟨b, step, a, rest, cycle⟩
  · exact ⟨b, step, c, rest, cycle⟩

/-- In a finite set that can always be moved on in, a cycle can be reached from everywhere. -/
theorem leadsToCycle_of_stuck {s : List α} (stuck : ∀ a ∈ s, ∃ b ∈ s, R a b) (mem : a ∈ s) :
    LeadsToCycle R a := by
  by_contra none
  let ahead := { b // b ∈ s ∧ ReflTransGen R a b }
  have finite : Finite ahead := (s.finite_toSet.subset fun _ h => h.1).to_subtype
  -- Without a cycle ahead, one could not move on for ever.
  let later : ahead → ahead → Prop := fun x y => TransGen R y.1 x.1
  have trans : IsTrans ahead later := ⟨fun _ _ _ h h' => h'.trans h⟩
  have irrefl : Std.Irrefl later := ⟨fun x cycle => none ⟨x.1, x.2.2, cycle⟩⟩
  have empty : ∀ x : ahead, False := fun x => by
    induction x using (Finite.wellFounded_of_trans_of_irrefl later).induction with
    | _ x ih =>
      obtain ⟨b, hb, step⟩ := stuck x.1 x.2.1
      exact ih ⟨b, hb, x.2.2.tail step⟩ (.single step)
  exact empty ⟨a, mem, .refl⟩

end Cycles

namespace Ordering

variable {entries listed pending front back left : List Entry} {e : Entry} {name other : String}

/-- An entry of the name needs the other one. -/
def Needs (entries : List Entry) (name other : String) : Prop :=
  ∃ e ∈ entries, e.name = name ∧ other ∈ e.needs

theorem eq_of_name_eq (unique : (entries.map Entry.name).Nodup) {e' : Entry} (mem : e ∈ entries)
    (mem' : e' ∈ entries) (same : e.name = e'.name) : e = e' :=
  List.inj_on_of_nodup_map unique mem mem' same

theorem exists_before (order : InOrder [] entries) (unique : (entries.map Entry.name).Nodup)
    (split : entries = front ++ e :: back) (h : TransGen (Needs entries) e.name other) :
    ∃ e' ∈ front, e'.name = other := by
  have direct : ∀ front e back, entries = front ++ e :: back → ∀ {other},
      Needs entries e.name other → ∃ e' ∈ front, e'.name = other := by
    rintro front e back rfl other ⟨e', mem, same, need⟩
    obtain rfl := eq_of_name_eq unique mem (by simp) same
    have ready := (inOrder_append.mp order).2.1
    rw [List.nil_append] at ready
    exact Entry.ready_iff.mp ready other need
  induction h with
  | single step => exact direct _ _ _ split step
  | tail _ step ih =>
    obtain ⟨e', mem, rfl⟩ := ih
    obtain ⟨front', back', rfl⟩ := List.append_of_mem mem
    obtain ⟨e'', mem', same⟩ :=
      direct front' e' (back' ++ e :: back) (by simp [split]) step
    exact ⟨e'', by simp [mem'], same⟩

theorem not_leadsToCycle (unique : (entries.map Entry.name).Nodup) {rest : List Entry}
    (order : InOrder listed rest) (sub : rest ⊆ entries)
    (before : ∀ e ∈ listed, ¬ LeadsToCycle (Needs entries) e.name) :
    ∀ e ∈ rest, ¬ LeadsToCycle (Needs entries) e.name := by
  induction rest generalizing listed with
  | nil => simp
  | cons e rest ih =>
    obtain ⟨ready, order⟩ := order
    obtain ⟨mem, sub⟩ := List.cons_subset.mp sub
    have first : ¬ LeadsToCycle (Needs entries) e.name := by
      rintro cycle
      obtain ⟨need, ⟨e', mem', same, needed⟩, further⟩ := cycle.exists_step
      obtain rfl := eq_of_name_eq unique mem' mem same
      obtain ⟨e'', hlisted, rfl⟩ := Entry.ready_iff.mp ready need needed
      exact before e'' hlisted further
    have rest_of := ih order sub fun e' mem' => by
      rcases List.mem_append.mp mem' with old | last
      · exact before e' old
      · obtain rfl := List.mem_singleton.mp last
        exact first
    simpa using ⟨first, rest_of⟩

theorem sublist_pass (listed pending : List Entry) : (pass listed pending).2.Sublist pending := by
  induction pending generalizing listed with
  | nil => exact .refl _
  | cons e rest ih =>
    rw [pass]
    split
    · exact (ih _).cons e
    · exact (ih listed).cons_cons e

theorem pass_of_length_eq (h : (pass listed pending).2.length = pending.length) :
    pass listed pending = (listed, pending) ∧ ∀ e ∈ pending, ¬ e.ready listed = true := by
  induction pending with
  | nil => simp [pass]
  | cons e rest ih =>
    rw [pass] at h ⊢
    split at h
    · have shorter := (sublist_pass (listed ++ [e]) rest).length_le
      simp only [List.length_cons] at h
      omega
    · next waits =>
      obtain ⟨same, all⟩ := ih (Nat.succ.inj h)
      rw [if_neg waits, same]
      simpa using ⟨eq_false_of_ne_true waits, by simpa using all⟩

/-- The entries that are left when a pass lists nothing. -/
structure Stuck (listed pending left : List Entry) : Prop where
  nonempty : left ≠ []
  sublist : left.Sublist pending
  split : ∃ new, InOrder listed new ∧ (new ++ left).Perm pending ∧
    ∀ e ∈ left, ¬ e.ready (listed ++ new) = true

theorem passes_cases {n : Nat} (listed : List Entry) (enough : pending.length ≤ n) :
    (∃ out, passes n listed pending = .ok out) ∨ ∃ left,
      passes n listed pending = .error (.dependencyCycle (left.map Entry.name)) ∧
        Stuck listed pending left := by
  induction n generalizing listed pending with
  | zero =>
    obtain rfl := List.length_eq_zero_iff.mp (Nat.le_zero.mp enough)
    exact .inl ⟨listed, rfl⟩
  | succ n ih =>
    cases pending with
    | nil => exact .inl ⟨listed, rfl⟩
    | cons e rest =>
      rw [passes.eq_def]
      dsimp only
      split
      · next same =>
        obtain ⟨pass_eq, waits⟩ := pass_of_length_eq same
        rw [pass_eq]
        exact .inr ⟨_, rfl, List.cons_ne_nil _ _, .refl _, [], trivial, .refl _, by simpa using waits⟩
      · next fewer =>
        obtain ⟨new, pass_eq, order, perm⟩ := inOrder_pass listed (e :: rest)
        have sublist := sublist_pass listed (e :: rest)
        have shorter := sublist.length_le
        rw [pass_eq]
        rcases @ih (pass listed (e :: rest)).2 (listed ++ new) (by omega) with
          done | ⟨left, failed, stuck⟩
        · exact .inl done
        · obtain ⟨more, order', perm', waits⟩ := stuck.split
          refine .inr ⟨left, failed, stuck.nonempty, stuck.sublist.trans sublist, new ++ more,
            inOrder_append.mpr ⟨order, order'⟩, ?_, by rwa [← List.append_assoc]⟩
          rw [List.append_assoc]
          exact (perm'.append_left new).trans perm

/-- Ordering succeeds if there is no cycle; otherwise it names the entries from which one can be
reached. -/
theorem order_cases (unique : (entries.map Entry.name).Nodup)
    (closed : ∀ e ∈ entries, ∀ need ∈ e.needs, need ∈ entries.map Entry.name) :
    ((∃ out, order entries = .ok out) ∧ ∀ a, ¬ LeadsToCycle (Needs entries) a) ∨
      ∃ remaining, order entries = .error (.dependencyCycle remaining) ∧ remaining ≠ [] ∧
        remaining.Sublist (entries.map Entry.name) ∧
        ∀ name, name ∈ remaining ↔ LeadsToCycle (Needs entries) name := by
  -- Only entries need anything.
  have entry : ∀ {a}, LeadsToCycle (Needs entries) a → ∃ e ∈ entries, e.name = a := by
    intro a cycle
    obtain ⟨-, ⟨e, mem, same, -⟩, -⟩ := cycle.exists_step
    exact ⟨e, mem, same⟩
  rcases passes_cases [] (Nat.le_refl entries.length) with ⟨out, ok⟩ | ⟨left, failed, h⟩
  · obtain ⟨order, perm⟩ := inOrder_order ok
    have free := not_leadsToCycle unique order perm.subset (by simp)
    refine .inl ⟨⟨out, ok⟩, fun a cycle => ?_⟩
    obtain ⟨e, mem, rfl⟩ := entry cycle
    exact free e (perm.mem_iff.mpr mem) cycle
  · obtain ⟨new, order, perm, waits⟩ := h.split
    rw [List.nil_append] at waits
    have free := not_leadsToCycle unique order
      (fun _ mem => perm.subset (List.mem_append_left _ mem)) (by simp)
    refine .inr ⟨_, failed, by simpa using h.nonempty, h.sublist.map _, fun name => ⟨?_, ?_⟩⟩
    · refine leadsToCycle_of_stuck fun a ha => ?_
      obtain ⟨e, mem, rfl⟩ := List.mem_map.mp ha
      have listed := perm.subset (List.mem_append_right new mem)
      obtain ⟨need, needed, missing⟩ : ∃ need ∈ e.needs, ∀ en ∈ new, en.name ≠ need := by
        simpa [Entry.ready_iff] using waits e mem
      obtain ⟨e', mem', same⟩ := List.mem_map.mp (closed e listed need needed)
      refine ⟨need, ?_, e, listed, rfl, needed⟩
      rcases List.mem_append.mp (perm.mem_iff.mpr mem') with hnew | hleft
      · exact absurd same (missing e' hnew)
      · exact List.mem_map.mpr ⟨e', hleft, same⟩
    · intro cycle
      obtain ⟨e, mem, rfl⟩ := entry cycle
      rcases List.mem_append.mp (perm.mem_iff.mpr mem) with hnew | hleft
      · exact absurd cycle (free e hnew)
      · exact List.mem_map_of_mem hleft

end Ordering

end SchemaCodec
