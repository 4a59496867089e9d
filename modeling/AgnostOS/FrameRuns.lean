import AgnostOS.FrameCalls
import AgnostOS.Library.Machine

/-! Runs of the frame allocator: sequences of calls with arbitrary arguments, the
pages they hand out and take back, and what holds whatever order the memory map
lists its ranges in. -/
namespace AgnostOS.Frame
open Globals Word Memory

/-! ### Calls and replies -/

inductive Call where
  | allocate
  | allocateContiguous (frames : Nat)
  | release (address : Nat)
  deriving DecidableEq, Repr

inductive Reply where
  | frame (result : Except FrameError FrameAddress)
  | range (result : Except FrameError PhysicalRange)
  | released (result : Except FrameError Unit)

def FrameAllocator.call (self : FrameAllocator) : Call → Reply × FrameAllocator
  | .allocate => self.allocate.map .frame id
  | .allocateContiguous frames => (self.allocateContiguous frames).map .range id
  | .release address => (self.release ⟨address⟩).map .released id

namespace Reply

def granted : Reply → List Nat
  | .frame (.ok f) => [f.address]
  | .range (.ok r) => pagesFrom r.start (r.length / PAGE_SIZE)
  | _ => []

def failed : Reply → Bool
  | .frame (.error _) | .range (.error _) | .released (.error _) => true
  | _ => false

end Reply

structure Tracked where
  allocator : FrameAllocator
  allocated : List Nat

namespace Tracked

def step (t : Tracked) (c : Call) : Tracked :=
  let (reply, allocator) := t.allocator.call c
  match c, reply with
  | .release address, .released (.ok ()) => ⟨allocator, t.allocated.erase address⟩
  | _, _ => ⟨allocator, reply.granted ++ t.allocated⟩

end Tracked

def boot (ranges : List MemoryRange) : Tracked := ⟨.new ranges, []⟩

abbrev runCalls (ranges : List MemoryRange) (calls : List Call) : Tracked :=
  Machine.run Tracked.step (boot ranges) calls

def FrameAllocator.freePages (self : FrameAllocator) : List Nat := pagesOf self.ranges.entries

def FrameAllocator.managedPages (self : FrameAllocator) : List Nat :=
  pagesOf self.managed.entries

/-! ### One call -/

inductive Outcome (t : Tracked) (c : Call) : Tracked → Prop
  | refused (reply : (t.allocator.call c).1.failed) (same : (t.allocator.call c).2 = t.allocator) :
      Outcome t c t
  | granted {left right : List FreeRange} {r : FreeRange} {n : Nat} {a' : FrameAllocator}
      (carved : Carved t.allocator left r right n a') (positive : 0 < n)
      (reply : (t.allocator.call c).1.granted = pagesFrom r.start n)
      (after : (t.allocator.call c).2 = a') : Outcome t c ⟨a', pagesFrom r.start n ++ t.allocated⟩
  | returned {address : Nat} {a' : FrameAllocator} (call : c = .release address)
      (admitted : Admitted t.allocator address)
      (merged : Merged t.allocator address (restored address t.allocator.ranges.entries) a') :
      Outcome t c ⟨a', t.allocated.erase address⟩

theorem outcome_of_refused {t : Tracked} {c : Call} {reply : Reply} (hfailed : reply.failed)
    (hcall : t.allocator.call c = (reply, t.allocator)) : Outcome t c (t.step c) := by
  have hstep : t.step c = t := by
    simp only [Tracked.step, hcall]
    rcases reply with (_ | _) | (_ | _) | (_ | _)
    · cases c <;> rfl
    · simp [Reply.failed] at hfailed
    · cases c <;> rfl
    · simp [Reply.failed] at hfailed
    · cases c <;> rfl
    · simp [Reply.failed] at hfailed
  rw [hstep]
  exact .refused (by rw [hcall]; exact hfailed) (by rw [hcall])

theorem outcome {t : Tracked} (h : Gridded t.allocator) (c : Call) : Outcome t c (t.step c) := by
  cases c with
  | allocate =>
    rcases allocate_cases h.toRegular with ⟨-, hcall⟩ | ⟨r, right, a', hcall, hcarved⟩
    · exact outcome_of_refused rfl (by simp only [FrameAllocator.call, hcall]; rfl)
    · have hreply : t.allocator.call .allocate = (.frame (.ok ⟨r.start⟩), a') := by
        simp only [FrameAllocator.call, hcall]
        rfl
      have hstep : t.step .allocate = ⟨a', pagesFrom r.start 1 ++ t.allocated⟩ := by
        simp only [Tracked.step, hreply, Reply.granted, pagesFrom_one]
      rw [hstep]
      exact .granted hcarved Nat.one_pos (by rw [hreply, pagesFrom_one]; rfl) (by rw [hreply])
  | allocateContiguous n =>
    rcases allocateContiguous_cases h.toRegular n with
      ⟨-, hcall⟩ | ⟨left, r, right, a', hpos, -, hcall, hcarved⟩
    · exact outcome_of_refused rfl (by simp only [FrameAllocator.call, hcall]; rfl)
    · have hreply : t.allocator.call (.allocateContiguous n) =
          (.range (.ok ⟨r.start, n * PAGE_SIZE⟩), a') := by
        simp only [FrameAllocator.call, hcall]
        rfl
      have hpages : Reply.granted (.range (.ok ⟨r.start, n * PAGE_SIZE⟩)) = pagesFrom r.start n := by
        simp [Reply.granted]
      have hstep : t.step (.allocateContiguous n) = ⟨a', pagesFrom r.start n ++ t.allocated⟩ := by
        simp only [Tracked.step, hreply, hpages]
      rw [hstep]
      exact .granted hcarved hpos (by rw [hreply, hpages]) (by rw [hreply])
  | release address =>
    have hrefuse : ∀ e, t.allocator.release ⟨address⟩ = (.error e, t.allocator) →
        Outcome t (.release address) (t.step (.release address)) := fun e hcall =>
      outcome_of_refused rfl (by simp only [FrameAllocator.call, hcall]; rfl)
    rcases release_cases h address with
      ⟨-, hcall⟩ | ⟨-, -, hcall⟩ | ⟨-, -, hcall⟩ | ⟨hadm, a', hmerged⟩
    · exact hrefuse _ hcall
    · exact hrefuse _ hcall
    · exact hrefuse _ hcall
    · have hstep : t.step (.release address) = ⟨a', t.allocated.erase address⟩ := by
        simp only [Tracked.step, FrameAllocator.call, hmerged.result]
        rfl
      rw [hstep]
      exact .returned rfl hadm hmerged

/-! ### What every order of the map keeps -/

structure Grounded (runs : List FreeRange) (t : Tracked) : Prop where
  gridded : Gridded t.allocator
  managed : t.allocator.managed.entries = runs

theorem boot_grounded {ranges : List MemoryRange} (hlen : ranges.length ≤ MAX_MEMORY_RANGES)
    (hs : ∀ r ∈ usableRuns ranges, r.Sound) (ha : ∀ r ∈ usableRuns ranges, PAGE_SIZE ∣ r.start) :
    Grounded (usableRuns ranges) (boot ranges) := by
  have hload := new_loaded hlen hs
  refine ⟨⟨hload.regular hs, ?_, ?_, ?_⟩, hload.managed⟩
  · rw [boot, hload.ranges]
    exact ha
  · rw [boot, hload.managed]
    exact hs
  · rw [boot, hload.managed]
    exact ha

theorem Outcome.grounded {runs : List FreeRange} {t t' : Tracked} {c : Call}
    (ho : Outcome t c t') (h : Grounded runs t) : Grounded runs t' := by
  cases ho with
  | refused _ _ => exact h
  | granted hcarved _ _ _ =>
    exact ⟨hcarved.gridded h.gridded, by rw [hcarved.managed]; exact h.managed⟩
  | returned _ hadm hmerged =>
    exact ⟨hmerged.gridded hadm h.gridded, by rw [hmerged.managed]; exact h.managed⟩

end AgnostOS.Frame
