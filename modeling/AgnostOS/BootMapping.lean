import AgnostOS.PageCalls

/-! The bootstrap of paging.rs as one list of identity mappings: what is asked for, what
the hierarchy holds after each page, and where the list stops. -/
namespace AgnostOS.Paging
open Globals Word AgnostOS.Frame Attempt PageTableFlags

/-! ### The pages asked for -/

def outerBounds (range : Nat × Nat) : Except PagingError (Nat × Nat) := do
  let outer ← outerRange range
  pageBounds outer.1 outer.2

/-- The bounds of the windows that `initialize` maps, in its order, with their flags. -/
def bootWindows (framebuffer kernelImage heap : Nat × Nat) (stackMarker : Nat) :
    List (Except PagingError (Nat × Nat) × PageTableFlags) :=
  [(outerBounds kernelImage, kernelFlags),
    (if heap.2 ≠ 0 then pageBounds heap.1 heap.2 else .ok (0, 0), dataFlags),
    (outerBounds framebuffer, deviceFlags),
    (pageBounds (stackRange stackMarker).1 (stackRange stackMarker).2, dataFlags)]

/-- The pages up to the first window whose end does not fit in 64 bits. -/
def requests : List (Except PagingError (Nat × Nat) × PageTableFlags) → List (Nat × PageTableFlags)
  | [] => []
  | (.error _, _) :: _ => []
  | (.ok bounds, flags) :: rest => (windowPages bounds).map (fun page => (page, flags)) ++ requests rest

def windowError : List (Except PagingError (Nat × Nat) × PageTableFlags) → Option PagingError
  | [] => none
  | (.error e, _) :: _ => some e
  | (.ok _, _) :: rest => windowError rest

def requestedPages (framebuffer kernelImage heap : Nat × Nat) (stackMarker : Nat) : List Nat :=
  (requests (bootWindows framebuffer kernelImage heap stackMarker)).map Prod.fst

theorem exists_of_mem_requests {windows : List (Except PagingError (Nat × Nat) × PageTableFlags)}
    {request : Nat × PageTableFlags} (h : request ∈ requests windows) :
    ∃ window ∈ windows, ∃ bounds, window.1 = .ok bounds ∧ request.1 ∈ windowPages bounds := by
  induction windows with
  | nil => cases h
  | cons window rest ih =>
    obtain ⟨bounds, flags⟩ := window
    cases bounds with
    | error e => cases h
    | ok bounds =>
      rw [requests] at h
      cases List.mem_append.mp h with
      | inl hhere =>
        obtain ⟨page, hpage, rfl⟩ := List.mem_map.mp hhere
        exact ⟨_, List.mem_cons_self, bounds, rfl, hpage⟩
      | inr hthere =>
        obtain ⟨window, hwindow, hin⟩ := ih hthere
        exact ⟨window, List.mem_cons_of_mem _ hwindow, hin⟩

/-- Windows without a common page give a list without repetition. -/
theorem nodup_requests {windows : List (Except PagingError (Nat × Nat) × PageTableFlags)}
    (h : windows.Pairwise fun v w => ∀ b c, v.1 = .ok b → w.1 = .ok c →
      ∀ page ∈ windowPages b, page ∉ windowPages c) :
    ((requests windows).map Prod.fst).Nodup := by
  induction windows with
  | nil => exact List.nodup_nil
  | cons window rest ih =>
    obtain ⟨hfirst, hrest⟩ := List.pairwise_cons.mp h
    obtain ⟨bounds, flags⟩ := window
    cases bounds with
    | error e => exact List.nodup_nil
    | ok bounds =>
      rw [requests, List.map_append, List.map_map]
      have hpages : (windowPages bounds).map (Prod.fst ∘ fun page => (page, flags)) =
          windowPages bounds := List.map_id _
      rw [hpages]
      refine List.nodup_append.mpr ⟨pagesFrom_nodup _ _, ih hrest, ?_⟩
      rintro page hpage _ hother rfl
      obtain ⟨request, hrequest, hsame⟩ := List.mem_map.mp hother
      obtain ⟨window, hwindow, c, hc, hin⟩ := exists_of_mem_requests hrequest
      rw [hsame] at hin
      exact hfirst window hwindow bounds c rfl hc page hpage hin

section Program
variable {mappers : Mappers} {storage : Storage}

variable (mappers storage) in
def mapWindows (windows : List (Except PagingError (Nat × Nat) × PageTableFlags))
    (finish : Kernel PagingError Unit) : Kernel PagingError Unit := do
  mapAll mappers storage (requests windows)
  match windowError windows with
  | none => finish
  | some e => throw (.error e)

theorem mapWindows_cons (bounds : Except PagingError (Nat × Nat)) (flags : PageTableFlags)
    (rest : List (Except PagingError (Nat × Nat) × PageTableFlags))
    (finish : Kernel PagingError Unit) :
    mapWindows mappers storage ((bounds, flags) :: rest) finish = (do
      mapBounds mappers storage bounds flags
      mapWindows mappers storage rest finish) := by
  cases bounds with
  | error e => rfl
  | ok bounds =>
    simp only [mapWindows, mapBounds, orRaise, pure_bind, requests, windowError, mapAll_append,
      bind_assoc]

theorem mapOuter_eq (range : Nat × Nat) (flags : PageTableFlags) (rest : Kernel PagingError Unit) :
    (do
      let outer ← orRaise id (outerRange range)
      mapRange mappers storage outer.1 outer.2 flags
      rest) = (do
      mapBounds mappers storage (outerBounds range) flags
      rest) := by
  rw [outerBounds]
  cases houter : outerRange range with
  | error e => rfl
  | ok outer =>
    simp only [orRaise, pure_bind, mapRange_eq]
    rfl

theorem mapHeap_eq (heap : Nat × Nat) (flags : PageTableFlags) :
    (if heap.2 ≠ 0 then mapRange mappers storage heap.1 heap.2 flags else pure ()) =
      mapBounds mappers storage (if heap.2 ≠ 0 then pageBounds heap.1 heap.2 else .ok (0, 0))
        flags := by
  by_cases hsize : heap.2 ≠ 0
  · rw [if_pos hsize, if_pos hsize, mapRange_eq]
  · rw [if_neg hsize, if_neg hsize]
    rfl

/-- The whole bootstrap is the cleared root, one list of pages, and the switch. -/
theorem initializePaging_eq (framebuffer kernelImage heap : Nat × Nat) (stackMarker : Nat) :
    initializePaging mappers storage framebuffer kernelImage heap stackMarker = (do
      installRoot storage
      mapWindows mappers storage (bootWindows framebuffer kernelImage heap stackMarker)
        (activate (storage.address 0))) := by
  have hlast : mapWindows mappers storage [] (activate (storage.address 0)) =
      activate (storage.address 0) := rfl
  simp only [bootWindows, mapWindows_cons, hlast, ← mapHeap_eq, ← mapRange_eq, ← mapOuter_eq]
  rw [initializePaging]
  by_cases hsize : heap.2 ≠ 0
  · rw [if_pos hsize]
    simp only [if_pos hsize]
  · rw [if_neg hsize]
    simp only [if_neg hsize, pure_bind]

end Program

end AgnostOS.Paging
