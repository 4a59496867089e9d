import AgnostOS.FlameGraph
import AgnostOS.Profiling

/-! The lines of a profile dump, read back: decimals, records, and the nodes they give. -/
namespace AgnostOS.FlameGraph
open Commands Profiling

section Fold
variable {σ α ε : Type} {f : σ → α → Except ε σ} {s s' : σ} {l : List α}

theorem foldlM_cons_ok {x : α} (h : f s x = .ok s') : (x :: l).foldlM f s = l.foldlM f s' := by
  rw [List.foldlM_cons, h]
  rfl

theorem foldlM_append_ok (h : l.foldlM f s = .ok s') (r : List α) :
    (l ++ r).foldlM f s = r.foldlM f s' := by
  rw [List.foldlM_append, h]
  rfl

end Fold

/-! ### Decimals -/

structure IsDecimal (n : Nat) (text : Text) : Prop where
  ne_nil : text ≠ []
  digits : ∀ c ∈ text, 48 ≤ c.toNat ∧ c.toNat ≤ 57
  value : text.foldl (fun value c => 10 * value + (c.toNat - 48)) 0 = n

theorem toNat_digit {d : Nat} (h : d < 10) : (Char.ofNat ('0'.toNat + d)).toNat = 48 + d := by
  exact (by decide : ∀ d < 10, (Char.ofNat ('0'.toNat + d)).toNat = 48 + d) d h

theorem decimalDigits_spec {cursor value : Nat} (hcursor : 0 < cursor) (h : value < 10 ^ cursor)
    (digits : Text) : ∃ front, decimalDigits cursor value digits = some (front ++ digits) ∧
      IsDecimal value front := by
  induction cursor generalizing value digits with
  | zero => exact absurd hcursor (Nat.lt_irrefl 0)
  | succ cursor ih =>
    have hlast := toNat_digit (Nat.mod_lt value (by decide : 0 < 10))
    rw [decimalDigits]
    by_cases hrest : value / 10 = 0
    · refine ⟨[Char.ofNat ('0'.toNat + value % 10)], by simp only [if_pos hrest]; rfl, by simp, ?_, ?_⟩
      · intro c hc
        rw [List.mem_singleton.mp hc, hlast]
        omega
      · simp only [List.foldl_cons, List.foldl_nil, hlast]
        omega
    · have hless : value / 10 < 10 ^ cursor := by
        rw [Nat.div_lt_iff_lt_mul (by decide)]
        rwa [Nat.pow_succ] at h
      have hpos : 0 < cursor := Nat.pos_of_ne_zero fun hzero => by
        rw [hzero, Nat.pow_zero] at hless
        omega
      obtain ⟨front, hdigits, hfront⟩ :=
        ih hpos hless (Char.ofNat ('0'.toNat + value % 10) :: digits)
      refine ⟨front ++ [Char.ofNat ('0'.toNat + value % 10)], ?_, by simp, ?_, ?_⟩
      · simp only [if_neg hrest, hdigits, List.append_assoc, List.singleton_append]
      · intro c hc
        cases List.mem_append.mp hc with
        | inl hc => exact hfront.digits c hc
        | inr hc =>
          rw [List.mem_singleton.mp hc, hlast]
          omega
      · rw [List.foldl_append, hfront.value]
        simp only [List.foldl_cons, List.foldl_nil, hlast]
        omega

theorem writeDecimal_spec {n : Nat} (h : n < 2 ^ 64) :
    ∃ text, writeDecimal n = some text ∧ IsDecimal n text := by
  obtain ⟨front, hdigits, hfront⟩ :=
    decimalDigits_spec (by decide : 0 < 20) (h.trans (by decide)) []
  exact ⟨front, by rwa [List.append_nil] at hdigits, hfront⟩

theorem digit_of_range {c : Char} (h : 48 ≤ c.toNat ∧ c.toNat ≤ 57) :
    digit c = some (c.toNat - 48) := if_pos h

theorem number_of_digits {text : Text} (h : ∀ c ∈ text, 48 ≤ c.toNat ∧ c.toNat ≤ 57)
    (value : Nat) : number value text =
      some (text.foldl (fun value c => 10 * value + (c.toNat - 48)) value) := by
  induction text generalizing value with
  | nil => rfl
  | cons c text ih =>
    have hc := h c (by simp)
    have hne : c ≠ '_' := by
      rintro rfl
      exact absurd hc (by decide)
    have hstep : number value (c :: text) = number (10 * value + (c.toNat - 48)) text := by
      rw [number]
      · rw [digit_of_range hc]
      · intro c' rest hcontra
        exact absurd hcontra hne
    rw [hstep, ih fun c' hc' => h c' (by simp [hc'])]
    rfl

theorem not_isSpace_of_digit {c : Char} (h : 48 ≤ c.toNat ∧ c.toNat ≤ 57) : isSpace c = false := by
  simp only [isSpace, decide_eq_false_iff_not]
  omega

theorem IsDecimal.int_eq {n : Nat} {text : Text} (h : IsDecimal n text) :
    int text = some (n : Int) := by
  have hstrip : strip text = text := by
    have hdrop : ∀ l : Text, (∀ c ∈ l, isSpace c = false) → l.dropWhile isSpace = l := by
      intro l hl
      cases l with
      | nil => rfl
      | cons c l => rw [List.dropWhile_cons_of_neg (by simp [hl c (by simp)])]
    have hall : ∀ c ∈ text, isSpace c = false := fun c hc => not_isSpace_of_digit (h.digits c hc)
    rw [strip, hdrop text hall, hdrop text.reverse fun c hc => hall c (List.mem_reverse.mp hc),
      List.reverse_reverse]
  have hvalue := h.value
  have hdigits := h.digits
  cases text with
  | nil => exact absurd rfl h.ne_nil
  | cons c rest =>
    have hc := hdigits c (by simp)
    have hnatural : natural (c :: rest) = some n := by
      rw [natural, digit_of_range hc]
      simp only
      rw [number_of_digits fun c' hc' => hdigits c' (by simp [hc'])]
      rw [List.foldl_cons, Nat.mul_zero, Nat.zero_add] at hvalue
      rw [hvalue]
    rw [int, hstrip]
    split
    · next heq =>
      obtain rfl := (List.cons.inj heq).1
      exact absurd hc (by decide)
    · next heq =>
      obtain rfl := (List.cons.inj heq).1
      exact absurd hc (by decide)
    · rw [hnatural]
      rfl

/-! ### Splitting -/

theorem split_append {separator : Char} {front : Text} (h : ∀ c ∈ front, c ≠ separator)
    (maxsplit : Nat) (rest : Text) : split separator (maxsplit + 1) (front ++ separator :: rest) =
      front :: split separator maxsplit rest := by
  have hpos : ∀ c ∈ front, decide (c ≠ separator) = true := fun c hc => decide_eq_true (h c hc)
  rw [split, List.dropWhile_append_of_pos hpos, List.takeWhile_append_of_pos hpos]
  simp

theorem splitlinesFrom_append {text : Text} (h : ∀ c ∈ text, isLineBreak c = false)
    (line rest : Text) :
    splitlinesFrom line (text ++ '\n' :: rest) = (line ++ text) :: splitlinesFrom [] rest := by
  induction text generalizing line with
  | nil =>
    rw [List.nil_append, List.append_nil, splitlinesFrom]
    · rfl
    · intro rest' hcontra
      simp at hcontra
  | cons c text ih =>
    have hc := h c (by simp)
    rw [List.cons_append, splitlinesFrom, if_neg (by simp [hc]), ih fun c' hc' => h c' (by simp [hc'])]
    · simp
    · rintro rest' rfl
      exact absurd hc (by decide)

theorem splitlines_lines {lines : List Text} (h : ∀ line ∈ lines, ∀ c ∈ line, isLineBreak c = false) :
    splitlines (lines.map (· ++ ['\n'])).flatten = lines := by
  rw [splitlines]
  induction lines with
  | nil => rfl
  | cons line lines ih =>
    rw [List.map_cons, List.flatten_cons, List.append_assoc, List.singleton_append,
      splitlinesFrom_append (h line (by simp)), ih fun l hl => h l (by simp [hl]), List.nil_append]

theorem universalNewlines_of_not_mem {text : Text} (h : '\r' ∉ text) :
    universalNewlines text = text := by
  induction text with
  | nil => rfl
  | cons c text ih =>
    rw [List.mem_cons, not_or] at h
    rw [universalNewlines, if_neg (Ne.symm h.1), ih h.2]
    rintro rest rfl
    exact absurd rfl h.1

/-! ### The lines of a dump -/

theorem key_injective : Function.Injective (Nat.cast : Nat → Int) := fun _ _ h => Int.ofNat.inj h

def flameNode (p : Profiler) (i : Nat) : FlameNode :=
  if i = 0 then rootNode
  else ⟨i, some (p.nodes i).parent, (p.nodes i).name, (p.nodes i).calls, (p.nodes i).calls, []⟩

structure IsRecord (index : Nat) (node : Node) (line : Text) : Prop where
  written : record index node = some (line ++ ['\n'])
  start : "N:".toList.isPrefixOf line = true
  parsed : parseRecord line =
    some ⟨index, some node.parent, node.name, node.calls, node.calls, []⟩
  flat : ∀ c ∈ line, isLineBreak c = false

theorem IsDecimal.no_space {n : Nat} {text : Text} (h : IsDecimal n text) : ∀ c ∈ text, c ≠ ' ' := by
  rintro c hc rfl
  exact absurd (h.digits _ hc) (by decide)

theorem IsDecimal.flat {n : Nat} {text : Text} (h : IsDecimal n text) :
    ∀ c ∈ text, isLineBreak c = false := by
  intro c hc
  have hrange := h.digits c hc
  simp only [isLineBreak, decide_eq_false_iff_not]
  intro hin
  simp only [List.mem_cons, List.not_mem_nil, or_false] at hin
  rcases hin with rfl | rfl | rfl | rfl | rfl | rfl | rfl | rfl | rfl | rfl
  all_goals exact absurd hrange (by decide)

theorem exists_record {index : Nat} {node : Node} (hindex : index < 2 ^ 64)
    (hparent : node.parent < 2 ^ 64) (hcalls : node.calls < 2 ^ 64)
    (hname : ∀ c ∈ node.name, isLineBreak c = false) : ∃ line, IsRecord index node line := by
  obtain ⟨indexText, hwrite, hindexText⟩ := writeDecimal_spec hindex
  obtain ⟨parentText, hwrite', hparentText⟩ := writeDecimal_spec hparent
  obtain ⟨callsText, hwrite'', hcallsText⟩ := writeDecimal_spec hcalls
  have hsplit : split ' ' 3 (indexText ++ ' ' :: (parentText ++ ' ' :: (callsText ++ ' ' :: node.name))) =
      [indexText, parentText, callsText, node.name] := by
    rw [split_append hindexText.no_space, split_append hparentText.no_space,
      split_append hcallsText.no_space]
    rfl
  refine ⟨'N' :: ':' :: (indexText ++ ' ' :: (parentText ++ ' ' :: (callsText ++ ' ' :: node.name))),
    ?_, rfl, ?_, ?_⟩
  · simp [record, hwrite, hwrite', hwrite'']
  · simp only [parseRecord, List.drop_succ_cons, List.drop_zero, hsplit, hindexText.int_eq,
      hparentText.int_eq, hcallsText.int_eq]
  · intro c hc
    simp only [List.mem_cons, List.mem_append] at hc
    rcases hc with rfl | rfl | hc | rfl | hc | rfl | hc | rfl | hc
    · rfl
    · rfl
    · exact hindexText.flat c hc
    · rfl
    · exact hparentText.flat c hc
    · rfl
    · exact hcallsText.flat c hc
    · rfl
    · exact hname c hc

structure IsDropped (dropped : Nat) (lines : List Text) : Prop where
  written : droppedLine dropped = some (lines.map (· ++ ['\n'])).flatten
  read : ∀ nodes, lines.foldlM readLine (nodes, 0) = .ok (nodes, (dropped : Int))
  flat : ∀ line ∈ lines, ∀ c ∈ line, isLineBreak c = false

theorem flat_of_all {text : Text} (h : text.all (fun c => !isLineBreak c) = true) :
    ∀ c ∈ text, isLineBreak c = false := by
  intro c hc
  have hc' := List.all_eq_true.mp h c hc
  rwa [Bool.not_eq_true'] at hc'

theorem readLine_dropped {dropped : Nat} {text : Text} (h : IsDecimal dropped text)
    (state : Nodes × Int) :
    readLine state ("AGNOSTOS_PROFILE_DROPPED_PATHS".toList ++ '=' :: text) =
      .ok (state.1, (dropped : Int)) := by
  have hlabel : ∀ c ∈ "AGNOSTOS_PROFILE_DROPPED_PATHS".toList, c ≠ '=' := by
    have hall : "AGNOSTOS_PROFILE_DROPPED_PATHS".toList.all (· ≠ '=') = true := by decide
    simpa only [decide_eq_true_eq] using List.all_eq_true.mp hall
  have hsplit : split '=' 1 ("AGNOSTOS_PROFILE_DROPPED_PATHS".toList ++ '=' :: text) =
      ["AGNOSTOS_PROFILE_DROPPED_PATHS".toList, text] := by
    rw [split_append hlabel]
    rfl
  have hequals : "AGNOSTOS_PROFILE_DROPPED_PATHS=".toList =
      "AGNOSTOS_PROFILE_DROPPED_PATHS".toList ++ ['='] := by decide
  have hstart : "AGNOSTOS_PROFILE_DROPPED_PATHS=".toList.isPrefixOf
      ("AGNOSTOS_PROFILE_DROPPED_PATHS".toList ++ '=' :: text) = true := by
    refine List.isPrefixOf_iff_prefix.mpr ⟨text, ?_⟩
    rw [hequals, List.append_assoc, List.singleton_append]
  have hnot : ¬ "N:".toList.isPrefixOf
      ("AGNOSTOS_PROFILE_DROPPED_PATHS".toList ++ '=' :: text) = true := by
    rw [List.isPrefixOf_iff_prefix]
    rintro ⟨rest, hrest⟩
    have hhead := congrArg List.head? hrest
    simp at hhead
  rw [readLine, if_neg hnot, if_pos hstart, hsplit]
  simp only [List.getElem?_cons_succ, List.getElem?_cons_zero, Option.bind_some, h.int_eq]

theorem exists_dropped {dropped : Nat} (h : dropped < 2 ^ 64) : ∃ lines, IsDropped dropped lines := by
  by_cases hpos : dropped > 0
  · obtain ⟨text, hwrite, htext⟩ := writeDecimal_spec h
    refine ⟨["AGNOSTOS_PROFILE_DROPPED_PATHS".toList ++ '=' :: text], ?_, fun nodes => ?_, ?_⟩
    · have hequals : "AGNOSTOS_PROFILE_DROPPED_PATHS=".toList =
          "AGNOSTOS_PROFILE_DROPPED_PATHS".toList ++ ['='] := by decide
      simp only [droppedLine, if_pos hpos, hwrite, hequals]
      simp
    · rw [foldlM_cons_ok (readLine_dropped htext _)]
      rfl
    · intro line hline c hc
      rw [List.mem_singleton.mp hline] at hc
      cases List.mem_append.mp hc with
      | inl hc =>
        revert hc
        exact flat_of_all (by decide) c
      | inr hc =>
        cases List.mem_cons.mp hc with
        | inl heq =>
          subst heq
          rfl
        | inr hc => exact htext.flat c hc
  · have hnone : dropped = 0 := Nat.eq_zero_of_not_pos hpos
    subst hnone
    exact ⟨[], rfl, fun _ => rfl, by simp⟩

/-! ### The whole dump -/

abbrev HEADER : Text := "AGNOSTOS_PROFILE_V2".toList
abbrev FOOTER : Text := "AGNOSTOS_PROFILE_END".toList

structure Writable (p : Profiler) : Prop where
  count_pos : 0 < p.nodeCount
  count_le : p.nodeCount ≤ NODE_CAPACITY
  parent : ∀ i, 0 < i → i < p.nodeCount → (p.nodes i).parent < 2 ^ 64
  calls : ∀ i, 0 < i → i < p.nodeCount → (p.nodes i).calls < 2 ^ 64
  names : ∀ i, 0 < i → i < p.nodeCount → ∀ c ∈ (p.nodes i).name, isLineBreak c = false
  dropped : p.droppedPaths < 2 ^ 64

structure Lines (p : Profiler) (records dropped : List Text) : Prop where
  nodes : List.Forall₂ (fun i line => IsRecord i (p.nodes i) line)
    (List.range' 1 (p.nodeCount - 1)) records
  droppedPaths : IsDropped p.droppedPaths dropped
  text : p.dumpText =
    some ((HEADER :: (records ++ (dropped ++ [FOOTER]))).map (· ++ ['\n'])).flatten

theorem mapM_lines {ι : Type*} {f : ι → Option Text} {P : ι → Text → Prop} {l : List ι}
    (h : ∀ x ∈ l, ∃ line, f x = some (line ++ ['\n']) ∧ P x line) :
    ∃ lines, l.mapM f = some (lines.map (· ++ ['\n'])) ∧ List.Forall₂ P l lines := by
  induction l with
  | nil => exact ⟨[], rfl, .nil⟩
  | cons x l ih =>
    obtain ⟨line, hline, hx⟩ := h x (by simp)
    obtain ⟨lines, hlines, hl⟩ := ih fun y hy => h y (by simp [hy])
    exact ⟨line :: lines, by simp [hline, hlines], .cons hx hl⟩

theorem Writable.exists_lines {p : Profiler} (h : Writable p) :
    ∃ records dropped, Lines p records dropped := by
  have hrecord : ∀ i ∈ List.range' 1 (p.nodeCount - 1), ∃ line,
      record i (p.nodes i) = some (line ++ ['\n']) ∧ IsRecord i (p.nodes i) line := by
    intro i hi
    have hrange := List.mem_range'_1.mp hi
    have hlt : i < p.nodeCount := by omega
    have hle := h.count_le
    have hindex : i < 2 ^ 64 := by
      simp only [NODE_CAPACITY] at hle
      omega
    obtain ⟨line, hline⟩ := exists_record hindex (h.parent i hrange.1 hlt) (h.calls i hrange.1 hlt)
      (h.names i hrange.1 hlt)
    exact ⟨line, hline.written, hline⟩
  obtain ⟨records, hrecords, hall⟩ := mapM_lines hrecord
  obtain ⟨dropped, hdropped⟩ := exists_dropped h.dropped
  refine ⟨records, dropped, hall, hdropped, ?_⟩
  have hheader : "AGNOSTOS_PROFILE_V2\n".toList = HEADER ++ ['\n'] := by decide
  have hfooter : "AGNOSTOS_PROFILE_END\n".toList = FOOTER ++ ['\n'] := by decide
  have hmin : min p.nodeCount NODE_CAPACITY = p.nodeCount := min_eq_left h.count_le
  simp only [Profiler.dumpText, hmin, hrecords, hdropped.written, hheader, hfooter]
  simp

theorem flat_of_records {p : Profiler} {indices : List Nat} {records : List Text}
    (h : List.Forall₂ (fun i line => IsRecord i (p.nodes i) line) indices records) :
    ∀ line ∈ records, ∀ c ∈ line, isLineBreak c = false := by
  induction h with
  | nil => simp
  | cons hline _ ih => exact List.forall_mem_cons.mpr ⟨hline.flat, ih⟩

theorem Lines.flat {p : Profiler} {records dropped : List Text} (h : Lines p records dropped) :
    ∀ line ∈ HEADER :: (records ++ (dropped ++ [FOOTER])), ∀ c ∈ line, isLineBreak c = false := by
  intro line hline
  simp only [List.mem_cons, List.mem_append, List.not_mem_nil, or_false] at hline
  rcases hline with rfl | hline | hline | rfl
  · exact flat_of_all (by decide)
  · exact flat_of_records h.nodes line hline
  · exact h.droppedPaths.flat line hline
  · exact flat_of_all (by decide)

theorem Lines.readTrace_eq {p : Profiler} {records dropped : List Text}
    (h : Lines p records dropped) : ∃ bytes, p.dump = some (bytes, { p with recording := false }) ∧
      readTrace bytes = some (HEADER :: (records ++ (dropped ++ [FOOTER]))) := by
  refine ⟨_, by rw [Profiler.dump, h.text]; rfl, ?_⟩
  have hreturn : '\r' ∉
      ((HEADER :: (records ++ (dropped ++ [FOOTER]))).map (· ++ ['\n'])).flatten := by
    intro hin
    obtain ⟨line', hline', hmem⟩ := List.mem_flatten.mp hin
    obtain ⟨line, hline, rfl⟩ := List.mem_map.mp hline'
    cases List.mem_append.mp hmem with
    | inl hmem => exact absurd (h.flat line hline _ hmem) (by decide)
    | inr hmem => simp at hmem
  have hdecode : ∀ s : String, String.fromUTF8? s.toUTF8 = some s := fun s =>
    dif_pos s.isValidUTF8
  rw [readTrace, hdecode, Option.map_some, String.toList_ofList,
    universalNewlines_of_not_mem hreturn, splitlines_lines h.flat]

/-- Records are read into the table one after the other. -/
theorem foldlM_records {p : Profiler} {m k : Nat} {records : List Text} (hk : 0 < k)
    (h : List.Forall₂ (fun i line => IsRecord i (p.nodes i) line) (List.range' k m) records)
    (dropped : Int) :
    records.foldlM readLine (Dict.table Nat.cast (flameNode p) k, dropped) =
      .ok (Dict.table Nat.cast (flameNode p) (k + m), dropped) := by
  induction m generalizing k records with
  | zero =>
    cases h
    rfl
  | succ m ih =>
    rw [List.range'_succ] at h
    cases h with
    | @cons _ line _ records hline hrest =>
      have hnode : flameNode p k = ⟨k, some (p.nodes k).parent, (p.nodes k).name,
          (p.nodes k).calls, (p.nodes k).calls, []⟩ := if_neg hk.ne'
      have hread : readLine (Dict.table Nat.cast (flameNode p) k, dropped) line =
          .ok (Dict.table Nat.cast (flameNode p) (k + 1), dropped) := by
        rw [readLine, if_pos hline.start, hline.parsed]
        simp only
        rw [← hnode]
        have hset := Dict.set_table_new (g := flameNode p) (n := k) (v := flameNode p k) key_injective
        rw [Function.update_eq_self] at hset
        rw [← hset, hnode]
      have hall := ih (Nat.succ_pos k) hrest
      rw [Nat.succ_add] at hall
      rw [foldlM_cons_ok hread]
      exact hall

/-- The reader takes exactly the nodes of the profile from its dump. -/
theorem Lines.read_eq {p : Profiler} {records dropped : List Text} (h : Lines p records dropped)
    (hpos : 0 < p.nodeCount) :
    (HEADER :: (records ++ (dropped ++ [FOOTER]))).foldlM readLine ([(0, rootNode)], 0) =
      .ok (Dict.table Nat.cast (flameNode p) p.nodeCount, (p.droppedPaths : Int)) := by
  have hheader : ∀ state, readLine state HEADER = .ok state := fun state => rfl
  have hfooter : ∀ state, readLine state FOOTER = .ok state := fun state => rfl
  have hroot : ([(0, rootNode)] : Nodes) = Dict.table Nat.cast (flameNode p) 1 := rfl
  have hrecords := foldlM_records Nat.one_pos h.nodes 0
  rw [Nat.add_sub_cancel' hpos] at hrecords
  rw [foldlM_cons_ok (hheader _), hroot, foldlM_append_ok hrecords,
    foldlM_append_ok (h.droppedPaths.read _), foldlM_cons_ok (hfooter _)]
  rfl

end AgnostOS.FlameGraph
