import Derusting.Foundations.Transition
import Mathlib.Data.List.Basic
import Mathlib.Logic.Function.Basic

/-!
# Programs on memory that is reused

A program acquires regions of memory, reads their cells and frees them, one access at a time.
Between its accesses regions arrive where nothing live is, others are released, and cells that are
not live change at will.

`Evaluates` runs a program on the values its regions arrived with.  A program that can be run so
yields the same result in every interleaving, and accesses only regions it holds: these are
`Evaluates.yields` and `Evaluates.staysInHeld`.
-/

namespace Foundations.Regions

open Foundations.Transition

variable {Address Value α β : Type}

/-- Cells that are acquired and freed together, with the values they arrived with. -/
structure Region (Address Value : Type) where
  handle : Address
  cells : List (Address × Value)
  nodup : (cells.map Prod.fst).Nodup
deriving DecidableEq

/-- The addresses of the cells. -/
def Region.addresses (region : Region Address Value) : List Address := region.cells.map Prod.fst

section Store

variable [DecidableEq Address]

/-- The memory in which a region has just arrived. -/
def Region.store (region : Region Address Value) (memory : Address → Value) : Address → Value :=
  fun address ↦ (region.cells.lookup address).getD (memory address)

theorem store_of_mem {region : Region Address Value} {cell : Address × Value}
    (hcell : cell ∈ region.cells) (memory : Address → Value) :
    region.store memory cell.1 = cell.2 := by
  obtain ⟨front, back, hcells⟩ := List.append_of_mem hcell
  have hlookup : region.cells.lookup cell.1 = some cell.2 := by
    refine List.lookup_eq_some_iff.mpr ⟨front, back, hcells, fun other hother ↦ ?_⟩
    have hnodup := region.nodup
    rw [hcells, List.map_append, List.map_cons] at hnodup
    have hne := (List.nodup_append.mp hnodup).2.2 other.1 (List.mem_map_of_mem hother) cell.1
      List.mem_cons_self
    exact bne_iff_ne.mpr (Ne.symm hne)
  rw [Region.store, hlookup, Option.getD_some]

theorem store_of_notMem {region : Region Address Value} {address : Address}
    (h : address ∉ region.addresses) (memory : Address → Value) :
    region.store memory address = memory address := by
  have hlookup : region.cells.lookup address = none := by
    refine List.lookup_eq_none_iff.mpr fun cell hcell ↦ ?_
    exact bne_iff_ne.mpr fun hsame ↦ h (hsame ▸ List.mem_map_of_mem hcell)
  rw [Region.store, hlookup, Option.getD_none]

end Store

/-- A program, access by access. -/
inductive Program (Address Value : Type) (α : Type) where
  | done (result : α)
  | read (address : Address) (next : Value → Program Address Value α)
  | acquire (region : Region Address Value) (next : Program Address Value α)
  | free (region : Region Address Value) (next : Program Address Value α)

variable [DecidableEq Address] [DecidableEq Value]

namespace Program

/-- Go on with what the program results in. -/
def bind : Program Address Value α → (α → Program Address Value β) → Program Address Value β
  | done result, next => next result
  | read address rest, next => read address fun value ↦ (rest value).bind next
  | acquire region rest, next => acquire region (rest.bind next)
  | free region rest, next => free region (rest.bind next)

instance : Monad (Program Address Value) where
  pure := done
  bind := bind

/-- Evaluation on the values the regions arrived with, from the regions held before to those held
after. -/
inductive Evaluates : List (Region Address Value) → Program Address Value α → α →
    List (Region Address Value) → Prop
  | done (held : List (Region Address Value)) (result : α) :
      Evaluates held (done result) result held
  | read {held after : List (Region Address Value)} {region : Region Address Value}
      {address : Address} {value : Value} {next : Value → Program Address Value α} {result : α}
      (hheld : region ∈ held) (hcell : (address, value) ∈ region.cells)
      (hnext : Evaluates held (next value) result after) :
      Evaluates held (read address next) result after
  | acquire {held after : List (Region Address Value)} {region : Region Address Value}
      {next : Program Address Value α} {result : α}
      (hnext : Evaluates (region :: held) next result after) :
      Evaluates held (acquire region next) result after
  | free {held after : List (Region Address Value)} {region : Region Address Value}
      {next : Program Address Value α} {result : α} (hheld : region ∈ held)
      (hnext : Evaluates (held.erase region) next result after) :
      Evaluates held (free region next) result after

variable {held middle after : List (Region Address Value)} {program : Program Address Value α}
  {next : α → Program Address Value β} {result : α} {final : β}

theorem Evaluates.bind (h : Evaluates held program result middle)
    (hnext : Evaluates middle (next result) final after) :
    Evaluates held (program >>= next) final after := by
  induction h with
  | done => exact hnext
  | read hheld hcell _ ih => exact .read hheld hcell (ih hnext)
  | acquire _ ih => exact .acquire (ih hnext)
  | free hheld _ ih => exact .free hheld (ih hnext)

/-- The result of a continuation is one of the whole. -/
theorem Evaluates.exists_bind {property : β → Prop} (h : Evaluates held program result middle)
    (hnext : ∃ final, Evaluates middle (next result) final after ∧ property final) :
    ∃ final, Evaluates held (program >>= next) final after ∧ property final :=
  hnext.imp fun _ hfinal ↦ ⟨h.bind hfinal.1, hfinal.2⟩

end Program

/-! ## Interleavings -/

/-- The memory with the regions that are live, those of them the program holds, and what is left of
the program. -/
structure Pool (Address Value α : Type) where
  memory : Address → Value
  live : List (Region Address Value)
  held : List (Region Address Value)
  program : Program Address Value α

/-- What can happen: the program goes on, a region arrives or is released by somebody else, or a
cell that is not live changes. -/
inductive Access (Address Value : Type) where
  | proceed
  | arrive (region : Region Address Value)
  | release (region : Region Address Value)
  | write (address : Address) (value : Value)

namespace Pool

/-- Nothing has arrived yet. -/
def start (memory : Address → Value) (program : Program Address Value α) : Pool Address Value α :=
  ⟨memory, [], [], program⟩

/-- The next access of the program. A region that has not arrived is waited for. -/
def proceed (pool : Pool Address Value α) : Option (Pool Address Value α) :=
  match pool.program with
  | .done _ => none
  | .read address next => some { pool with program := next (pool.memory address) }
  | .acquire region next =>
      if region ∈ pool.live ∧ region ∉ pool.held then
        some { pool with held := region :: pool.held, program := next }
      else none
  | .free region next =>
      some { pool with
        live := pool.live.erase region
        held := pool.held.erase region
        program := next }

/-- One step. -/
def step (pool : Pool Address Value α) : Access Address Value → Option (Pool Address Value α)
  | .proceed => pool.proceed
  | .arrive region =>
      if ∀ other ∈ pool.live,
          other.handle ≠ region.handle ∧ ∀ address ∈ region.addresses, address ∉ other.addresses then
        some { pool with memory := region.store pool.memory, live := region :: pool.live }
      else none
  | .release region =>
      if region ∈ pool.live ∧ region ∉ pool.held then
        some { pool with live := pool.live.erase region }
      else none
  | .write address value =>
      if ∀ region ∈ pool.live, address ∉ region.addresses then
        some { pool with memory := Function.update pool.memory address value }
      else none

/-- The next access is one to a region the program holds. -/
def Holds (pool : Pool Address Value α) : Prop :=
  match pool.program with
  | .read address _ => ∃ region ∈ pool.held, address ∈ region.addresses
  | .free region _ => region ∈ pool.held
  | .done _ | .acquire _ _ => True

/-- Live regions are as they arrived, and what the program holds is live. -/
structure Stable (pool : Pool Address Value α) : Prop where
  intact : ∀ region ∈ pool.live, ∀ cell ∈ region.cells, pool.memory cell.1 = cell.2
  live : ∀ region ∈ pool.held, region ∈ pool.live
  nodup : pool.held.Nodup

variable {pool after : Pool Address Value α}

omit [DecidableEq Address] [DecidableEq Value] in
theorem stable_start (memory : Address → Value) (program : Program Address Value α) :
    (start memory program).Stable where
  intact _ h := nomatch h
  live _ h := nomatch h
  nodup := List.nodup_nil

theorem Stable.step (h : pool.Stable) {access : Access Address Value}
    (hstep : pool.step access = some after) : after.Stable := by
  cases access with
  | proceed =>
      change pool.proceed = some after at hstep
      unfold proceed at hstep
      split at hstep
      · cases hstep
      · obtain rfl := Option.some.inj hstep
        exact ⟨h.intact, h.live, h.nodup⟩
      next region _ _ =>
        obtain ⟨⟨hlive, hnew⟩, hafter⟩ := Option.ite_none_right_eq_some.mp hstep
        obtain rfl := Option.some.inj hafter
        refine ⟨h.intact, fun other hother ↦ ?_, List.nodup_cons.mpr ⟨hnew, h.nodup⟩⟩
        rcases List.mem_cons.mp hother with rfl | hold
        · exact hlive
        · exact h.live other hold
      next region _ _ =>
        obtain rfl := Option.some.inj hstep
        refine ⟨fun other hother ↦ h.intact other (List.mem_of_mem_erase hother),
          fun other hother ↦ ?_, h.nodup.erase region⟩
        obtain ⟨hne, hold⟩ := h.nodup.mem_erase_iff.mp hother
        exact (List.mem_erase_of_ne hne).mpr (h.live other hold)
  | arrive region =>
      obtain ⟨hfree, hafter⟩ := Option.ite_none_right_eq_some.mp hstep
      obtain rfl := Option.some.inj hafter
      refine ⟨fun other hother cell hcell ↦ ?_,
        fun other hother ↦ List.mem_cons_of_mem _ (h.live other hother), h.nodup⟩
      rcases List.mem_cons.mp hother with rfl | hold
      · exact store_of_mem hcell _
      · have haway : cell.1 ∉ region.addresses := fun hmem ↦
          (hfree other hold).2 cell.1 hmem (List.mem_map_of_mem hcell)
        exact (store_of_notMem haway _).trans (h.intact other hold cell hcell)
  | release region =>
      obtain ⟨⟨-, hnot⟩, hafter⟩ := Option.ite_none_right_eq_some.mp hstep
      obtain rfl := Option.some.inj hafter
      refine ⟨fun other hother ↦ h.intact other (List.mem_of_mem_erase hother),
        fun other hother ↦ ?_, h.nodup⟩
      have hne : other ≠ region := fun hsame ↦ hnot (hsame ▸ hother)
      exact (List.mem_erase_of_ne hne).mpr (h.live other hother)
  | write address value =>
      obtain ⟨hfree, hafter⟩ := Option.ite_none_right_eq_some.mp hstep
      obtain rfl := Option.some.inj hafter
      refine ⟨fun other hother cell hcell ↦ ?_, h.live, h.nodup⟩
      have hne : cell.1 ≠ address := fun hsame ↦
        hfree other hother (hsame ▸ List.mem_map_of_mem hcell)
      exact (Function.update_of_ne hne _ _).trans (h.intact other hother cell hcell)

/-- Where nothing is live any region can arrive. -/
theorem step_arrive (memory : Address → Value) (held : List (Region Address Value))
    (program : Program Address Value α) (region : Region Address Value) :
    step ⟨memory, [], held, program⟩ (.arrive region) =
      some ⟨region.store memory, [region], held, program⟩ := by
  rw [step, if_pos]
  intro other hother
  cases hother

/-- Only its own accesses change what the program holds and what is left of it. -/
theorem step_cases {access : Access Address Value} (hstep : pool.step access = some after) :
    (access = .proceed ∧ pool.proceed = some after) ∨
      (after.held = pool.held ∧ after.program = pool.program) := by
  cases access with
  | proceed => exact .inl ⟨rfl, hstep⟩
  | arrive region =>
      obtain ⟨-, hafter⟩ := Option.ite_none_right_eq_some.mp hstep
      obtain rfl := Option.some.inj hafter
      exact .inr ⟨rfl, rfl⟩
  | release region =>
      obtain ⟨-, hafter⟩ := Option.ite_none_right_eq_some.mp hstep
      obtain rfl := Option.some.inj hafter
      exact .inr ⟨rfl, rfl⟩
  | write address value =>
      obtain ⟨-, hafter⟩ := Option.ite_none_right_eq_some.mp hstep
      obtain rfl := Option.some.inj hafter
      exact .inr ⟨rfl, rfl⟩

/-- The program can still be evaluated to its result. -/
def OnTrack (result : α) (freed : List (Region Address Value)) (pool : Pool Address Value α) :
    Prop :=
  pool.Stable ∧ pool.program.Evaluates pool.held result freed

variable {result : α} {rest : List (Region Address Value)}

theorem OnTrack.step (h : pool.OnTrack result rest) {access : Access Address Value}
    (hstep : pool.step access = some after) : after.OnTrack result rest := by
  refine ⟨h.1.step hstep, ?_⟩
  obtain ⟨hstable, hevaluates⟩ := h
  rcases step_cases hstep with ⟨-, hproceed⟩ | ⟨hheld, hprogram⟩
  · obtain ⟨memory, live, held, program⟩ := pool
    cases hevaluates with
    | done => cases hproceed
    | @read _ _ region address value next _ hheld hcell hnext =>
        obtain rfl := Option.some.inj hproceed
        have hvalue : memory address = value :=
          hstable.intact region (hstable.live region hheld) (address, value) hcell
        subst hvalue
        exact hnext
    | acquire hnext =>
        obtain ⟨-, hafter⟩ := Option.ite_none_right_eq_some.mp hproceed
        obtain rfl := Option.some.inj hafter
        exact hnext
    | free hheld hnext =>
        obtain rfl := Option.some.inj hproceed
        exact hnext
  · rw [hheld, hprogram]
    exact hevaluates

variable {guard : Pool Address Value α → Access Address Value → Prop} {memory : Address → Value}
  {program : Program Address Value α}

/-- A program that can be evaluated stays on track in every interleaving. -/
theorem onTrack_of_evaluates (h : program.Evaluates [] result rest)
    (hreach : Reaches step guard (start memory program) pool) : pool.OnTrack result rest :=
  hreach.invariant (OnTrack result rest) ⟨stable_start memory program, h⟩
    fun _ _ _ hbefore _ hstep ↦ hbefore.step hstep

end Pool

namespace Program

/-- The result of a program that has come to its end. -/
def result? : Program Address Value α → Option α
  | done result => some result
  | read _ _ | acquire _ _ | free _ _ => none

/-- Whatever happens between its accesses, the program results in nothing else. -/
def Yields (program : Program Address Value α) (result : α) : Prop :=
  ∀ memory pool, Reaches Pool.step Unrestricted (Pool.start memory program) pool →
    ∀ found, pool.program.result? = some found → found = result

/-- Whatever happens between its accesses, the program reads and frees only what it holds. -/
def StaysInHeld (program : Program Address Value α) : Prop :=
  ∀ memory pool, Reaches Pool.step Unrestricted (Pool.start memory program) pool → pool.Holds

variable {program : Program Address Value α} {result : α} {rest : List (Region Address Value)}

theorem Evaluates.yields (h : program.Evaluates [] result rest) : program.Yields result := by
  intro memory pool hreach found hfound
  have hevaluates := (Pool.onTrack_of_evaluates h hreach).2
  generalize pool.program = last at hevaluates hfound
  cases hevaluates with
  | done => exact (Option.some.inj hfound).symm
  | read _ _ _ => cases hfound
  | acquire _ => cases hfound
  | free _ _ => cases hfound

theorem Evaluates.staysInHeld (h : program.Evaluates [] result rest) : program.StaysInHeld := by
  intro memory pool hreach
  have hevaluates := (Pool.onTrack_of_evaluates h hreach).2
  rw [Pool.Holds]
  generalize pool.program = last at hevaluates
  cases hevaluates with
  | done => trivial
  | read hheld hcell _ => exact ⟨_, hheld, List.mem_map_of_mem hcell⟩
  | acquire _ => trivial
  | free hheld _ => exact hheld

end Program

end Foundations.Regions
