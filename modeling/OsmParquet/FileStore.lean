import Mathlib.Data.List.Infix
import Mathlib.Logic.Function.Basic

/-!
A store of files and lists of operations on it.

An operation writes, links or removes one file, at once. A program that is stopped has done the
operations of a prefix of its list. What no operation is about stays as it was, and what a list of
writes leaves of a file depends on the store only if the list does not write the file.
-/

namespace OsmParquet.FileStore

variable {π β : Type*}

abbrev Store (π β : Type*) := π → Option β

inductive Op (π β : Type*) where
  | write (path : π) (file : β)
  | link (src dst : π)
  | remove (path : π)

def Op.target : Op π β → π
  | write path _ => path
  | link _ dst => dst
  | remove path => path

def Op.IsWrite : Op π β → Prop
  | write _ _ => True
  | _ => False

variable [DecidableEq π]

def act (s : Store π β) : Op π β → Store π β
  | .write path file => Function.update s path (some file)
  | .link src dst => Function.update s dst (s src)
  | .remove path => Function.update s path none

def actAll (s : Store π β) (ops : List (Op π β)) : Store π β := ops.foldl act s

@[simp] lemma actAll_nil (s : Store π β) : actAll s [] = s := rfl
@[simp] lemma actAll_cons (s : Store π β) (op : Op π β) (ops : List (Op π β)) :
    actAll s (op :: ops) = actAll (act s op) ops := rfl
lemma actAll_append (s : Store π β) (ops ops' : List (Op π β)) :
    actAll s (ops ++ ops') = actAll (actAll s ops) ops' := by
  simp [actAll, List.foldl_append]

section Frame

variable {s s' : Store π β} {p : π} {ops : List (Op π β)}

lemma act_of_ne {op : Op π β} (h : op.target ≠ p) : act s op p = s p := by
  cases op <;> exact Function.update_of_ne (Ne.symm h) _ _

/-- **Frame.** What is not the target of an operation stays. -/
theorem actAll_of_ne (h : ∀ op ∈ ops, op.target ≠ p) : actAll s ops p = s p := by
  induction ops generalizing s with
  | nil => rfl
  | cons op ops ih =>
    rw [actAll_cons, ih fun op' h' => h op' (List.mem_cons_of_mem _ h')]
    exact act_of_ne (h op List.mem_cons_self)

lemma act_write_congr {op : Op π β} (hw : op.IsWrite) (h : s p = s' p ∨ op.target = p) :
    act s op p = act s' op p := by
  cases op with
  | write path file =>
    by_cases hp : (Op.write path file).target = p
    · cases hp
      simp [act, Op.target]
    · rw [act_of_ne hp, act_of_ne hp]
      exact h.resolve_right hp
  | link => cases hw
  | remove => cases hw

/-- What some writes leave of a file is the same in two stores that agree on the file, or if one
of the writes is to it. -/
theorem actAll_write_congr (hw : ∀ op ∈ ops, op.IsWrite)
    (h : s p = s' p ∨ ∃ op ∈ ops, op.target = p) : actAll s ops p = actAll s' ops p := by
  induction ops generalizing s s' with
  | nil =>
    rcases h with h | ⟨op, hop, -⟩
    · exact h
    · cases hop
  | cons op ops ih =>
    have hop := hw op List.mem_cons_self
    refine ih (fun op' h' => hw op' (List.mem_cons_of_mem _ h')) ?_
    rcases h with h | ⟨op', hop', ht⟩
    · exact .inl (act_write_congr hop (.inl h))
    · rcases List.mem_cons.mp hop' with rfl | hin
      · exact .inl (act_write_congr hop (.inr ht))
      · exact .inr ⟨op', hin, ht⟩

/-- A file that is only ever written with one content has it. -/
theorem actAll_eq_some {b : β} (hex : s p = some b ∨ ∃ op ∈ ops, op.target = p)
    (hu : ∀ op ∈ ops, op.target = p → op = .write p b) : actAll s ops p = some b := by
  induction ops generalizing s with
  | nil =>
    rcases hex with h | ⟨op, hop, -⟩
    · exact h
    · cases hop
  | cons op ops ih =>
    refine ih ?_ fun op' h' => hu op' (List.mem_cons_of_mem _ h')
    by_cases ht : op.target = p
    · rw [hu op List.mem_cons_self ht]
      exact .inl (Function.update_self _ _ _)
    · rcases hex with h | ⟨op', hop', ht'⟩
      · exact .inl ((act_of_ne ht).trans h)
      · rcases List.mem_cons.mp hop' with rfl | hin
        · exact (ht ht').elim
        · exact .inr ⟨op', hin, ht'⟩

lemma isSome_act_write {op : Op π β} (hw : op.IsWrite) (h : (s p).isSome = true ∨ op.target = p) :
    (act s op p).isSome = true := by
  cases op with
  | write path file =>
    by_cases hp : (Op.write path file).target = p
    · cases hp
      simp [act, Op.target]
    · rw [act_of_ne hp]
      exact h.resolve_right hp
  | link => cases hw
  | remove => cases hw

/-- Writes lose no file. -/
theorem isSome_actAll_write (hw : ∀ op ∈ ops, op.IsWrite)
    (h : (s p).isSome = true ∨ ∃ op ∈ ops, op.target = p) : (actAll s ops p).isSome = true := by
  induction ops generalizing s with
  | nil =>
    rcases h with h | ⟨op, hop, -⟩
    · exact h
    · cases hop
  | cons op ops ih =>
    have hop := hw op List.mem_cons_self
    refine ih (fun op' h' => hw op' (List.mem_cons_of_mem _ h')) ?_
    rcases h with h | ⟨op', hop', ht⟩
    · exact .inl (isSome_act_write hop (.inl h))
    · rcases List.mem_cons.mp hop' with rfl | hin
      · exact .inl (isSome_act_write hop (.inr ht))
      · exact .inr ⟨op', hin, ht⟩

/-- A file that is not removed stays. -/
theorem isSome_actAll_of_spared (hw : ∀ op ∈ ops, op.IsWrite ∨ op.target ≠ p)
    (h : (s p).isSome = true) : (actAll s ops p).isSome = true := by
  induction ops generalizing s with
  | nil => exact h
  | cons op ops ih =>
    refine ih (fun op' h' => hw op' (List.mem_cons_of_mem _ h')) ?_
    rcases hw op List.mem_cons_self with hop | hne
    · exact isSome_act_write hop (.inl h)
    · rw [act_of_ne hne]
      exact h

end Frame

end OsmParquet.FileStore
