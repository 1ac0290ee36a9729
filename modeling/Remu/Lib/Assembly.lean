/-
Assembly code with labels.

A piece of code is a list of items: operations on the state, labels, jumps,
branches and returns. The position in the code is the list of items that are
left, and a jump goes on behind its label. What an operation does and how a
branch decides is the instruction set's business (`Isa`); a branch may
change the state too, like an instruction that counts down.

`Returns` is a run with enough fuel. It peels off the code item by item, so
a run is followed by rewriting, and a loop by induction on what bounds it.
-/
import Mathlib.Logic.Basic

namespace Remu

/-- An item: `op` acts on the state, `branch` decides, the others only move
in the code. -/
inductive Item (ι γ : Type) where
  | op (i : ι)
  | label (l : Nat)
  | jump (l : Nat)
  | branch (c : γ) (l : Nat)
  | ret
deriving DecidableEq, Repr

/-- What the instructions do. -/
structure Isa (ι γ σ : Type) where
  op : ι → σ → σ
  branch : γ → σ → Bool × σ

namespace Item

variable {ι γ : Type}

/-- The code behind a label. -/
def behind (l : Nat) : List (Item ι γ) → Option (List (Item ι γ))
  | [] => none
  | .label l' :: rest => if l' = l then some rest else behind l rest
  | _ :: rest => behind l rest

@[simp] theorem behind_ops (l : Nat) (ops : List ι) (rest : List (Item ι γ)) :
    behind l (ops.map .op ++ rest) = behind l rest := by
  induction ops with
  | nil => rfl
  | cons i ops ih => exact ih

end Item

namespace Isa

open Item

variable {ι γ σ : Type} (M : Isa ι γ σ) (code : List (Item ι γ))

/-- Straight-line code. -/
def exec (ops : List ι) (s : σ) : σ := ops.foldl (fun s i => M.op i s) s

@[simp] theorem exec_nil (s : σ) : M.exec [] s = s := rfl

@[simp] theorem exec_cons (i : ι) (ops : List ι) (s : σ) :
    M.exec (i :: ops) s = M.exec ops (M.op i s) := rfl

theorem exec_append (ops ops' : List ι) (s : σ) :
    M.exec (ops ++ ops') s = M.exec ops' (M.exec ops s) :=
  List.foldl_append

/-- Run from an item on, to the next return. -/
def run : Nat → List (Item ι γ) → σ → Option σ
  | 0, _, _ => none
  | _ + 1, [], _ => none
  | _ + 1, .ret :: _, s => some s
  | n + 1, .op i :: rest, s => run n rest (M.op i s)
  | n + 1, .label _ :: rest, s => run n rest s
  | n + 1, .jump l :: _, s => (behind l code).bind fun rest => run n rest s
  | n + 1, .branch c l :: rest, s =>
    if (M.branch c s).1
      then (behind l code).bind fun rest => run n rest (M.branch c s).2
    else run n rest (M.branch c s).2

/-- With enough fuel the run returns, in state `t`. -/
def Returns (at_ : List (Item ι γ)) (s t : σ) : Prop :=
  ∃ n, M.run code n at_ s = some t

variable {M code} {rest : List (Item ι γ)} {s t : σ}

theorem Returns.ret : M.Returns code (.ret :: rest) s s := ⟨1, rfl⟩

theorem Returns.op {i : ι} (h : M.Returns code rest (M.op i s) t) :
    M.Returns code (.op i :: rest) s t := by
  obtain ⟨n, hn⟩ := h
  exact ⟨n + 1, hn⟩

theorem Returns.ops {ops : List ι} (h : M.Returns code rest (M.exec ops s) t) :
    M.Returns code (ops.map .op ++ rest) s t := by
  induction ops generalizing s with
  | nil => exact h
  | cons i ops ih => exact .op (ih h)

theorem Returns.label {l : Nat} (h : M.Returns code rest s t) :
    M.Returns code (.label l :: rest) s t := by
  obtain ⟨n, hn⟩ := h
  exact ⟨n + 1, hn⟩

theorem Returns.jump {l : Nat} {there : List (Item ι γ)}
    (hl : behind l code = some there)
    (h : M.Returns code there s t) : M.Returns code (.jump l :: rest) s t := by
  obtain ⟨n, hn⟩ := h
  refine ⟨n + 1, ?_⟩
  rw [run, hl]
  exact hn

theorem Returns.taken {c : γ} {l : Nat} {there : List (Item ι γ)}
    (hc : (M.branch c s).1 = true)
    (hl : behind l code = some there)
    (h : M.Returns code there (M.branch c s).2 t) :
    M.Returns code (.branch c l :: rest) s t := by
  obtain ⟨n, hn⟩ := h
  refine ⟨n + 1, ?_⟩
  rw [run, if_pos hc, hl]
  exact hn

theorem Returns.passed {c : γ} {l : Nat} (hc : (M.branch c s).1 = false)
    (h : M.Returns code rest (M.branch c s).2 t) :
    M.Returns code (.branch c l :: rest) s t := by
  obtain ⟨n, hn⟩ := h
  refine ⟨n + 1, ?_⟩
  rw [run, if_neg (Bool.eq_false_iff.1 hc)]
  exact hn

end Isa

end Remu
