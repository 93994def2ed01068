import Mathlib.Data.List.Basic
import Mathlib.Tactic.Common

/-!
# Programs that access a memory

A program is a tree of loads and stores, so that its run knows which addresses it accesses. What it
does not load does not matter to it.
-/

namespace Busybox.Accesses

variable {α β : Type}

abbrev Memory := Nat → UInt8

inductive Prog (α : Type)
  | done (value : α)
  | load (address : Nat) (next : UInt8 → Prog α)
  | store (address : Nat) (byte : UInt8) (next : Prog α)

namespace Prog

def bind : Prog α → (α → Prog β) → Prog β
  | done value, f => f value
  | load address next, f => load address fun byte => (next byte).bind f
  | store address byte next, f => store address byte (next.bind f)

instance : Monad Prog where
  pure := done
  bind := bind

end Prog

def load (address : Nat) : Prog UInt8 := .load address .done

def store (address : Nat) (byte : UInt8) : Prog Unit := .store address byte (.done ())

/-- The end of a run, and the addresses it loaded and stored, in order. -/
structure Run (α : Type) where
  value : α
  memory : Memory
  loads : List Nat
  stores : List Nat

def stored (memory : Memory) (address : Nat) (byte : UInt8) : Memory :=
  fun i => if i = address then byte else memory i

namespace Prog

def run : Prog α → Memory → Run α
  | done value, memory => ⟨value, memory, [], []⟩
  | load address next, memory =>
    let rest := (next (memory address)).run memory
    { rest with loads := address :: rest.loads }
  | store address byte next, memory =>
    let rest := next.run (stored memory address byte)
    { rest with stores := address :: rest.stores }

variable {memory memory' : Memory} {p : Prog α} {f : α → Prog β} {i : Nat}

@[simp] theorem run_pure (value : α) : (pure value : Prog α).run memory = ⟨value, memory, [], []⟩ :=
  rfl

@[simp] theorem run_load (address : Nat) :
    (Accesses.load address).run memory = ⟨memory address, memory, [address], []⟩ := rfl

@[simp] theorem run_store (address : Nat) (byte : UInt8) :
    (Accesses.store address byte).run memory =
      ⟨(), stored memory address byte, [], [address]⟩ := rfl

@[simp] theorem run_bind : (p >>= f).run memory =
    ⟨((f (p.run memory).value).run (p.run memory).memory).value,
      ((f (p.run memory).value).run (p.run memory).memory).memory,
      (p.run memory).loads ++ ((f (p.run memory).value).run (p.run memory).memory).loads,
      (p.run memory).stores ++ ((f (p.run memory).value).run (p.run memory).memory).stores⟩ := by
  change (p.bind f).run memory = _
  induction p generalizing memory with
  | done value => rfl
  | load address next ih => simp only [bind, run, ih, List.cons_append]
  | store address byte next ih => simp only [bind, run, ih, List.cons_append]

/-- What is not stored to is kept. -/
theorem run_frame (p : Prog α) (outside : i ∉ (p.run memory).stores) :
    (p.run memory).memory i = memory i := by
  induction p generalizing memory with
  | done value => rfl
  | load address next ih => exact ih _ outside
  | store address byte next ih =>
    have apart : i ≠ address := fun same => outside (same ▸ List.mem_cons_self)
    have rest := @ih (stored memory address byte) fun mem =>
      outside (List.mem_cons_of_mem _ mem)
    exact rest.trans (if_neg apart)

/-- A program that loads known addresses only does the same on every memory that has these
contents. -/
theorem run_agree {known : Nat → Prop} (p : Prog α)
    (agree : ∀ i, known i → memory' i = memory i) (inside : ∀ i ∈ (p.run memory).loads, known i) :
    (p.run memory').value = (p.run memory).value ∧
      ∀ i, known i ∨ i ∈ (p.run memory).stores →
        (p.run memory').memory i = (p.run memory).memory i := by
  induction p generalizing memory memory' known with
  | done value => exact ⟨rfl, fun i held => agree i (held.resolve_right List.not_mem_nil)⟩
  | load address next ih =>
    have same := agree address (inside address List.mem_cons_self)
    simp only [run, same]
    exact ih _ agree fun i mem => inside i (List.mem_cons_of_mem _ mem)
  | store address byte next ih =>
    have rest := @ih (stored memory address byte) (stored memory' address byte)
      (fun i => known i ∨ i = address)
      (fun i held => by
        by_cases at_ : i = address
        · simp only [stored, if_pos at_]
        · simp only [stored, if_neg at_]
          exact agree i (held.resolve_right at_))
      fun i mem => .inl (inside i mem)
    refine ⟨rest.1, fun i held => rest.2 i ?_⟩
    rcases held with known | mem
    · exact .inl (.inl known)
    · rcases List.mem_cons.mp mem with here | later
      · exact .inl (.inr here)
      · exact .inr later

/-- A run that stores nothing and loads known addresses only. -/
structure OnlyLoads (known : Nat → Prop) (p : Prog α) (memory : Memory) : Prop where
  loads : ∀ i ∈ (p.run memory).loads, known i
  stores : (p.run memory).stores = []

variable {known wider : Nat → Prop}

theorem OnlyLoads.mono (only : OnlyLoads known p memory) (wide : ∀ i, known i → wider i) :
    OnlyLoads wider p memory :=
  ⟨fun i mem => wide i (only.loads i mem), only.stores⟩

theorem OnlyLoads.keeps (only : OnlyLoads known p memory) : (p.run memory).memory = memory := by
  funext i
  exact run_frame p (only.stores ▸ List.not_mem_nil)

theorem OnlyLoads.pure (value : α) : OnlyLoads known (pure value : Prog α) memory :=
  ⟨fun _ mem => absurd mem List.not_mem_nil, rfl⟩

theorem OnlyLoads.load (held : known i) : OnlyLoads known (Accesses.load i) memory :=
  ⟨fun _ mem => List.mem_singleton.mp mem ▸ held, rfl⟩

theorem OnlyLoads.bind (first : OnlyLoads known p memory)
    (second : OnlyLoads known (f (p.run memory).value) memory) :
    OnlyLoads known (p >>= f) memory := by
  constructor
  · intro i mem
    rw [run_bind, first.keeps] at mem
    exact (List.mem_append.mp mem).elim (first.loads i) (second.loads i)
  · rw [run_bind, first.keeps]
    exact List.append_eq_nil_iff.mpr ⟨first.stores, second.stores⟩

end Prog

end Busybox.Accesses
