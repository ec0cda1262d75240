import Prac.Preproc
import Prac.StreamEval

/-!
# The values that a run has used (`mpcio.cpp`)

* `dumpPrecompStats` — the line that P0 and P1 print: for each thread its marker, and each kind of value that it
  has used with their number.
* `JobKind.argument` — a word of that line; `serverArg_argument` — as an argument it is the job of making
  these values.
* `stats_are_args` — the words of the line, given as arguments for preprocessing, make for every thread what
  it has used, at all three parties.
-/

namespace Prac

open CString

/-! ## The line -/

/-- The number of values of one kind, if there are any. -/
def dumpStat (name : String) (cnt : Nat) : List Char :=
  if 0 < cnt then name.toList ++ decimal cnt else []

/-- `rdpfstorage_dumpstats<WIDTH>`. -/
def rdpfstorageDumpstats (WIDTH : Nat) (stats : JobKind → Nat) (incremental : Bool) : List Char :=
  (List.range' 1 addressMaxBits).flatMap fun depth =>
    let cnt := stats (.rdpf depth incremental WIDTH)
    if 0 < cnt then
      (if incremental then " i" else " r").toList ++ decimal depth ++
        (if 1 < WIDTH then '.' :: decimal WIDTH else []) ++ ':' :: decimal cnt
    else []

/-- The part of one thread. -/
def dumpThread (thread : Nat) (stats : JobKind → Nat) : List Char :=
  (if 0 < thread then [' '] else []) ++ 'T' :: decimal thread ++
    dumpStat " m:" (stats .mult) ++ dumpStat " h:" (stats .half) ++ dumpStat " a:" (stats .and) ++
    dumpStat " s:" (stats .select) ++
    rdpfstorageDumpstats 1 stats false ++ rdpfstorageDumpstats 2 stats false ++
    rdpfstorageDumpstats 3 stats false ++ rdpfstorageDumpstats 4 stats false ++
    rdpfstorageDumpstats 5 stats false ++
    rdpfstorageDumpstats 1 stats true ++ rdpfstorageDumpstats 2 stats true ++
    rdpfstorageDumpstats 3 stats true ++ rdpfstorageDumpstats 4 stats true ++
    rdpfstorageDumpstats 5 stats true ++
    dumpStat " c:" (stats .cdpf)

/-- `MPCPeerIO::dump_precomp_stats`. -/
def dumpPrecompStats (numThreads : Nat) (stats : Nat → JobKind → Nat) : List Char :=
  ((List.range numThreads).flatMap fun thread => dumpThread thread (stats thread)) ++ ['\n']

/-! ## Its words -/

/-- The name of a kind in the arguments. -/
def JobKind.name : JobKind → List Char
  | mult => ['m']
  | half => ['h']
  | and => ['a']
  | select => ['s']
  | rdpf depth incremental width =>
    (if incremental then 'i' else 'r') :: (decimal depth ++ if 1 < width then '.' :: decimal width else [])
  | cdpf => ['c']
  | counter => ['k']

/-- The argument that asks for some values of a kind. -/
def JobKind.argument (kind : JobKind) (num : Nat) : List Char := kind.name ++ ':' :: decimal num

/-- The RDPFs of one width. -/
def rdpfKinds (width : Nat) (incremental : Bool) : List JobKind :=
  (List.range' 1 addressMaxBits).map fun depth => .rdpf depth incremental width

/-- The kinds that P0 and P1 have a storage for. -/
def peerKinds : List JobKind :=
  [.mult, .half, .and, .select] ++ (List.range' 1 5).flatMap (rdpfKinds · false) ++
    (List.range' 1 5).flatMap (rdpfKinds · true) ++ [.cdpf]

/-- The words for what was used of some kinds. -/
def usedArgs (kinds : List JobKind) (stats : JobKind → Nat) : List (List Char) :=
  (kinds.filter (0 < stats ·)).map fun kind => kind.argument (stats kind)

/-- Words with a blank before each. -/
def spaced (args : List (List Char)) : List Char := args.flatMap (' ' :: ·)

theorem spaced_append (args args' : List (List Char)) : spaced (args ++ args') = spaced args ++ spaced args' :=
  List.flatMap_append

theorem usedArgs_append (kinds kinds' : List JobKind) (stats : JobKind → Nat) :
    usedArgs (kinds ++ kinds') stats = usedArgs kinds stats ++ usedArgs kinds' stats := by
  rw [usedArgs, List.filter_append, List.map_append]
  rfl

theorem usedArgs_cons (kind : JobKind) (kinds : List JobKind) (stats : JobKind → Nat) :
    usedArgs (kind :: kinds) stats = usedArgs [kind] stats ++ usedArgs kinds stats :=
  usedArgs_append [kind] kinds stats

theorem spaced_usedArgs_singleton (kind : JobKind) (stats : JobKind → Nat) :
    spaced (usedArgs [kind] stats) =
      if 0 < stats kind then ' ' :: kind.argument (stats kind) else [] := by
  unfold usedArgs
  by_cases h : 0 < stats kind
  · simp only [h, List.filter_cons, decide_true, if_true, List.filter_nil]
    exact List.append_nil _
  · simp only [h, List.filter_cons, decide_false, Bool.false_eq_true, if_false, List.filter_nil]
    rfl

theorem rdpfstorageDumpstats_eq (WIDTH : Nat) (stats : JobKind → Nat) (incremental : Bool) :
    rdpfstorageDumpstats WIDTH stats incremental = spaced (usedArgs (rdpfKinds WIDTH incremental) stats) := by
  unfold rdpfstorageDumpstats rdpfKinds
  induction List.range' 1 addressMaxBits with
  | nil => rfl
  | cons depth depths ih =>
      rw [List.flatMap_cons, ih, List.map_cons, usedArgs_cons, spaced_append, spaced_usedArgs_singleton]
      congr 1
      by_cases h : 0 < stats (.rdpf depth incremental WIDTH)
      · cases incremental <;>
          simp only [h, if_true, JobKind.argument, JobKind.name, Bool.false_eq_true, if_false, List.append_assoc,
            List.cons_append] <;> rfl
      · rw [if_neg h, if_neg h]

theorem dumpThread_eq (thread : Nat) (stats : JobKind → Nat) :
    dumpThread thread stats =
      (if 0 < thread then [' '] else []) ++ marker thread ++ spaced (usedArgs peerKinds stats) := by
  have hstat {kind : JobKind} {name : String} (hname : name.toList = ' ' :: (kind.name ++ [':'])) :
      dumpStat name (stats kind) = spaced (usedArgs [kind] stats) := by
    rw [spaced_usedArgs_singleton, dumpStat, hname, JobKind.argument]
    simp only [List.cons_append, List.append_assoc, List.nil_append]
  have hkinds : peerKinds = .mult :: .half :: .and :: .select ::
      (rdpfKinds 1 false ++ (rdpfKinds 2 false ++ (rdpfKinds 3 false ++ (rdpfKinds 4 false ++
        (rdpfKinds 5 false ++ (rdpfKinds 1 true ++ (rdpfKinds 2 true ++ (rdpfKinds 3 true ++
          (rdpfKinds 4 true ++ (rdpfKinds 5 true ++ [.cdpf])))))))))) := by
    simp only [peerKinds, List.range'_succ, List.range'_zero, List.flatMap_cons, List.flatMap_nil,
      List.append_nil, List.append_assoc, List.cons_append, List.nil_append]
  rw [hkinds, usedArgs_cons, usedArgs_cons .half, usedArgs_cons .and, usedArgs_cons .select]
  simp only [usedArgs_append, spaced_append, ← rdpfstorageDumpstats_eq]
  rw [← @hstat .mult " m:" rfl, ← @hstat .half " h:" rfl, ← @hstat .and " a:" rfl, ← @hstat .select " s:" rfl,
    ← @hstat .cdpf " c:" rfl]
  simp only [dumpThread, marker, List.append_assoc]

/-! ## A word as an argument -/

theorem not_mem_name {c : Char} (hdigit : c.isDigit = false) (hc : c ∉ ['m', 'h', 'a', 's', 'i', 'r', '.', 'c', 'k'])
    (kind : JobKind) : c ∉ kind.name := by
  simp only [List.mem_cons, List.not_mem_nil, or_false, not_or] at hc
  cases kind with
  | rdpf depth incremental width =>
      have hsuffix : c ∉ if 1 < width then '.' :: decimal width else [] := by
        split
        · simp only [List.mem_cons, not_or]
          exact ⟨hc.2.2.2.2.2.2.1, not_mem_decimal hdigit width⟩
        · exact List.not_mem_nil
      simp only [JobKind.name, List.mem_cons, List.mem_append, not_or]
      refine ⟨?_, not_mem_decimal hdigit depth, hsuffix⟩
      cases incremental
      · exact hc.2.2.2.2.2.1
      · exact hc.2.2.2.2.1
  | _ => simp only [JobKind.name, List.mem_singleton, hc, not_false_eq_true]

/-- The width of a name is read back. -/
theorem splitWidth_name {c : Char} (hc : c ≠ '.') (depth : Nat) {width : Nat} (hpos : 1 ≤ width) (hle : width ≤ 5) :
    splitWidth (c :: (decimal depth ++ if 1 < width then '.' :: decimal width else [])) =
      (c :: decimal depth, width) := by
  have hdot : '.' ∉ c :: decimal depth := by
    simp only [List.mem_cons, not_or]
    exact ⟨hc.symm, not_mem_decimal rfl depth⟩
  unfold splitWidth
  by_cases hone : 1 < width
  · have hwidth : (BitVec.ofInt 8 (atoi (decimal width))).toNat = width := by
      rw [atoi_decimal (by omega), BitVec.ofInt_natCast, BitVec.toNat_ofNat]
      omega
    rw [if_pos hone, ← List.cons_append, strchr_append hdot]
    dsimp only
    rw [hwidth]
  · obtain rfl : width = 1 := by omega
    rw [if_neg hone, List.append_nil, strchr_eq_none hdot]

/-- **A word of the line is the argument for what it counts.** -/
theorem serverArg_argument {kind : JobKind} (hscanned : kind.Scanned) (hknown : kind.Known) {num : Nat}
    (hnum : num < 2 ^ 31) : serverArg (kind.argument num) = .ok (some ⟨kind, BitVec.ofNat 32 num⟩) := by
  have hsplit : strchr ':' (kind.argument num) = some (kind.name, decimal num) :=
    strchr_append (not_mem_name rfl (by decide) kind) (decimal num)
  have hvalue : BitVec.ofInt 32 (atoi (decimal num)) = BitVec.ofNat 32 num := by
    rw [atoi_decimal hnum, BitVec.ofInt_natCast]
  unfold serverArg
  rw [hsplit]
  dsimp only
  rw [hvalue]
  cases kind with
  | rdpf depth incremental width =>
      obtain ⟨hpos, hle, -⟩ := hscanned
      have hdepth : atoi (decimal depth) = depth := atoi_decimal (by omega)
      have hrdpf (c : Char) (hc : c ≠ '.') (incremental : Bool) :
          serverRdpf (c :: (decimal depth ++ if 1 < width then '.' :: decimal width else [])) incremental
            (BitVec.ofNat 32 num) = .ok (some ⟨.rdpf depth incremental width, BitVec.ofNat 32 num⟩) := by
        unfold serverRdpf
        rw [splitWidth_name hc depth hknown.1 hknown.2]
        dsimp only
        rw [List.tail_cons, hdepth, if_neg (by omega), Int.toNat_natCast]
      cases incremental
      · exact hrdpf 'r' (by decide) false
      · exact hrdpf 'i' (by decide) true
  | _ => rfl

/-! ## The whole line -/

theorem peerKinds_known {kind : JobKind} (h : kind ∈ peerKinds) : kind.Scanned ∧ kind.Known := by
  have hrdpf (incremental : Bool) (hmem : kind ∈ (List.range' 1 5).flatMap (rdpfKinds · incremental)) :
      kind.Scanned ∧ kind.Known := by
    obtain ⟨width, hwidth, hkind⟩ := List.mem_flatMap.mp hmem
    obtain ⟨depth, hdepth, rfl⟩ := List.mem_map.mp hkind
    have hw := List.mem_range'_1.mp hwidth
    have hd : 1 ≤ depth ∧ depth < 1 + 32 := List.mem_range'_1.mp hdepth
    exact ⟨⟨hd.1, by omega, by omega⟩, hw.1, by omega⟩
  simp only [peerKinds, List.mem_append, List.mem_cons, List.not_mem_nil, or_false] at h
  obtain ((hfirst | hmem) | hmem) | rfl := h
  · obtain rfl | rfl | rfl | rfl := hfirst <;> exact ⟨trivial, trivial⟩
  · exact hrdpf false hmem
  · exact hrdpf true hmem
  · exact ⟨trivial, trivial⟩

/-- Arguments that are all understood. -/
theorem serverLoop_map {ι : Type} {arg : ι → List Char} {job : ι → Job} {is : List ι}
    (h : ∀ i ∈ is, serverArg (arg i) = .ok (some (job i))) :
    (serverLoop (is.map arg)).stderr = [] ∧ (serverLoop (is.map arg)).jobs = is.map job := by
  induction is with
  | nil => exact ⟨rfl, rfl⟩
  | cons i is ih =>
      obtain ⟨hstderr, hjobs⟩ := ih fun j hj => h j (List.mem_cons_of_mem i hj)
      rw [List.map_cons, serverLoop, h i List.mem_cons_self]
      exact ⟨hstderr, congrArg (job i :: ·) hjobs⟩

theorem isspace_of_mem_name {kind : JobKind} {c : Char} (h : c ∈ kind.name) : isspace c = false := by
  by_contra hblank
  rw [Bool.not_eq_false] at hblank
  have hdigit : c.isDigit = false := by
    by_contra hdigit
    rw [Bool.not_eq_false] at hdigit
    rw [isspace_of_isDigit hdigit] at hblank
    cases hblank
  refine not_mem_name hdigit ?_ kind h
  intro hmem
  simp only [List.mem_cons, List.not_mem_nil, or_false] at hmem
  obtain rfl | rfl | rfl | rfl | rfl | rfl | rfl | rfl | rfl := hmem <;> cases hblank

theorem isspace_of_mem_decimal {n : Nat} {c : Char} (h : c ∈ decimal n) : isspace c = false :=
  isspace_of_isDigit (isDigit_of_mem_decimal h)

theorem isWord_argument (kind : JobKind) (num : Nat) : IsWord (kind.argument num) := by
  refine ⟨List.append_ne_nil_of_right_ne_nil _ (List.cons_ne_nil _ _), fun c hc => ?_⟩
  rcases List.mem_append.mp hc with hname | hnum
  · exact isspace_of_mem_name hname
  · rcases List.mem_cons.mp hnum with rfl | hdecimal
    · rfl
    · exact isspace_of_mem_decimal hdecimal

theorem isWord_marker (thread : Nat) : IsWord (marker thread) := by
  refine ⟨List.cons_ne_nil _ _, fun c hc => ?_⟩
  rcases List.mem_cons.mp hc with rfl | hdecimal
  · rfl
  · exact isspace_of_mem_decimal hdecimal

theorem usedArgs_isWord {kinds : List JobKind} {stats : JobKind → Nat} {arg : List Char}
    (h : arg ∈ usedArgs kinds stats) : IsWord arg := by
  obtain ⟨kind, -, rfl⟩ := List.mem_map.mp h
  exact isWord_argument kind _

theorem usedArgs_not_marker {kinds : List JobKind} {stats : JobKind → Nat} {arg : List Char}
    (h : arg ∈ usedArgs kinds stats) : isMarker arg = false := by
  obtain ⟨kind, -, rfl⟩ := List.mem_map.mp h
  cases kind with
  | rdpf depth incremental width => cases incremental <;> rfl
  | _ => rfl

/-- The words of the line are the markers, each with what its thread has used. -/
theorem words_dumpPrecompStats {numThreads : Nat} (hpos : 0 < numThreads) (stats : Nat → JobKind → Nat) :
    words (dumpPrecompStats numThreads stats) =
      sections 0 numThreads fun thread => usedArgs peerKinds (stats thread) := by
  obtain ⟨n, rfl⟩ := Nat.exists_eq_succ_of_ne_zero hpos.ne'
  have hlater (first k : Nat) (hfirst : 0 < first) :
      (List.range' first k).flatMap (fun thread => dumpThread thread (stats thread)) =
        spaced (sections first k fun thread => usedArgs peerKinds (stats thread)) := by
    induction k generalizing first with
    | zero => rfl
    | succ k ih =>
        rw [List.range'_succ, List.flatMap_cons, ih (first + 1) (Nat.succ_pos first), sections_succ, dumpThread_eq,
          if_pos hfirst]
        simp only [spaced, List.flatMap_cons, List.flatMap_append, List.cons_append, List.nil_append,
          List.append_assoc]
  rw [dumpPrecompStats, List.range_eq_range', List.range'_succ, List.flatMap_cons, hlater 1 n Nat.one_pos,
    sections_succ, dumpThread_eq, if_neg (Nat.lt_irrefl 0), List.nil_append, List.append_assoc (marker 0),
    ← spaced_append]
  refine words_line (isWord_marker 0) (fun w hw => ?_) rfl
  rcases List.mem_append.mp hw with hargs | hrest
  · exact usedArgs_isWord hargs
  · obtain ⟨thread, -, hmem⟩ := List.mem_flatMap.mp hrest
    rcases List.mem_cons.mp hmem with rfl | hargs
    · exact isWord_marker thread
    · exact usedArgs_isWord hargs

/-- **The line is a list of arguments.**  Given to the server for preprocessing, the words of the line make, in
every thread and at all three parties, as many values of every kind as the line says were used. -/
theorem stats_are_args {numThreads thread : Nat} (hthread : thread < numThreads) (stats : Nat → JobKind → Nat)
    (hstats : ∀ kind, stats thread kind < 2 ^ 31) (rest : List UInt8) :
    let scan := preprocessingServer thread (words (dumpPrecompStats numThreads stats))
    let jobs := (peerKinds.filter (0 < stats thread ·)).map fun kind => ⟨kind, BitVec.ofNat 32 (stats thread kind)⟩
    scan.stderr = [] ∧ scan.jobs = jobs ∧ preprocessingComp (scan.queued ++ rest) = some (jobs, rest) := by
  intro scan jobs
  have hargs : threadArgs thread (words (dumpPrecompStats numThreads stats)) =
      usedArgs peerKinds (stats thread) := by
    rw [words_dumpPrecompStats (Nat.zero_lt_of_lt hthread)]
    exact threadArgs_sections (fun _ _ => usedArgs_not_marker) hthread
  have hkinds (kind : JobKind) (hkind : kind ∈ peerKinds.filter (0 < stats thread ·)) :
      kind.Scanned ∧ kind.Known := peerKinds_known (List.mem_of_mem_filter hkind)
  obtain ⟨hstderr, hjobs⟩ := serverLoop_map fun kind hkind =>
    serverArg_argument (hkinds kind hkind).1 (hkinds kind hkind).2 (hstats kind)
  have hscan : scan = serverLoop (usedArgs peerKinds (stats thread)) := congrArg serverLoop hargs
  rw [hscan]
  refine ⟨hstderr, hjobs, ?_⟩
  have hagree := (serverLoop_agree (usedArgs peerKinds (stats thread)) rest).mpr fun job hjob => by
    obtain ⟨kind, hkind, rfl⟩ := List.mem_map.mp (hjobs ▸ hjob)
    exact (hkinds kind hkind).2
  rw [hagree]
  exact congrArg (fun jobs => some (jobs, rest)) hjobs

/-- Thread 1 of two has used three half triples and two incremental RDPFs of depth 7 and width 2. -/
theorem stats_are_args_two :
    let stats : Nat → JobKind → Nat := fun thread kind =>
      if kind = .half then 3 else if thread = 1 ∧ kind = .rdpf 7 true 2 then 2 else 0
    let scan := preprocessingServer 1 (words (dumpPrecompStats 2 stats))
    scan.jobs = [⟨.half, 3⟩, ⟨.rdpf 7 true 2, 2⟩] ∧
      preprocessingComp (scan.queued ++ [5]) = some ([⟨.half, 3⟩, ⟨.rdpf 7 true 2, 2⟩], [5]) := by
  intro stats scan
  have hstats kind : stats 1 kind < 2 ^ 31 := by
    dsimp only [stats]
    split
    · decide
    · split <;> decide
  have hjobs : (peerKinds.filter (0 < stats 1 ·)).map (fun kind => ⟨kind, BitVec.ofNat 32 (stats 1 kind)⟩) =
      ([⟨.half, 3⟩, ⟨.rdpf 7 true 2, 2⟩] : List Job) := by
    decide +kernel
  obtain ⟨-, hserver, hcomp⟩ := stats_are_args (by decide : 1 < 2) stats hstats [5]
  rw [hjobs] at hserver hcomp
  exact ⟨hserver, hcomp⟩

end Prac
