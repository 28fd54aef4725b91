import Mathlib.Data.List.Nodup
import Metainfo.Proofs.Build.Reread

/-!
# What a scan finds, and when the walk's order shows

A scan walks the source directory, in whatever order the walk yields the entries, reads
each file's names as text and sorts the files by segment list with a stable sort. This
module says what it finds and exactly when the order of the walk shows in its answer:

* `Disk.Finds`: the files a walk reports, said without the walk: below visible
  directories, not the excluded place, a regular file or a link, with the length its
  metadata gives when links are not followed;
* `mem_visit_iff` and `mem_collect_iff`: the walk reports exactly those files, one
  directory entry at a time, as long as its fuel reaches their depth, which the number of
  nodes always does (`Finds.length_le`);
* `nodup_rels_collect`, `Disk.WalkOrder`: on a disk that maps each place to one node, the
  walk reports each file once, so what it yields is one of the orders of the files found;
* `cmpSegments_eq_compare`, `filter_sortEntries`: segment lists are compared as the
  standard library compares lists of texts, and the sort is stable: files with one path
  leave it in the order they came in;
* `scan_walk_order`: a scan of a directory sorts the files of a walk order; in every order
  it lists exactly the files found, in segment order, strictly ascending exactly when no
  two of them read as the same segments; and every order gives one answer exactly when
  files that read as the same segments have one length. Two names that are not UTF-8 can
  read as the same text, and then the order shows.
-/

namespace Metainfo

/-! ## The order of segment lists -/

/-- Segment lists are compared as the standard library compares lists of texts:
lexicographically, each text by its characters. -/
theorem cmpSegments_eq_compare : ∀ a b : List String, cmpSegments a b = compare a b
  | [], [] => rfl
  | [], _ :: _ => rfl
  | _ :: _, [] => rfl
  | x :: xs, y :: ys => by
    rw [List.compare_eq_compareLex, List.compareLex_cons_cons, ← List.compare_eq_compareLex,
      ← cmpSegments_eq_compare xs ys, cmpSegments]
    -- strings are compared by `compareOfLessAndEq`
    have hcmp : compareOfLessAndEq x y = compare x y := rfl
    rw [hcmp]
    cases compare x y <;> rfl

/-- The test the sort of a scan orders files by. -/
theorem segmentsLE_iff (a b : FileEntry) :
    (cmpSegments a.path b.path != .gt) = true ↔ compare a.path b.path ≠ .gt := by
  rw [cmpSegments_eq_compare]
  cases compare a.path b.path <;> decide

theorem segmentsLE_trans (a b c : FileEntry) :
    (cmpSegments a.path b.path != .gt) = true → (cmpSegments b.path c.path != .gt) = true →
      (cmpSegments a.path c.path != .gt) = true := by
  simp only [segmentsLE_iff]
  exact Std.TransCmp.le_trans

theorem segmentsLE_total (a b : FileEntry) :
    ((cmpSegments a.path b.path != .gt) || (cmpSegments b.path a.path != .gt)) = true := by
  rw [Bool.or_eq_true, segmentsLE_iff, segmentsLE_iff]
  by_cases h : compare a.path b.path = .gt
  · rw [Std.OrientedCmp.gt_iff_lt.mp h]
    exact .inr (by decide)
  · exact .inl h

/-- A sorted scan is in segment order. -/
theorem pairwise_sortEntries_le (es : List FileEntry) :
    (sortEntries es).Pairwise fun a b => compare a.path b.path ≠ .gt :=
  (@List.pairwise_mergeSort _ (fun a b => cmpSegments a.path b.path != .gt) segmentsLE_trans
    segmentsLE_total es).imp fun h => (segmentsLE_iff _ _).mp h

/-- **The sort is stable.** The files with one path leave the sort in the order they came
in. -/
theorem filter_sortEntries (es : List FileEntry) (p : List String) :
    (sortEntries es).filter (·.path == p) = es.filter (·.path == p) := by
  -- the files with path `p` are in order as they stand, so they stay a sublist of the sort
  have hle : (es.filter (·.path == p)).Pairwise
      fun a b => (cmpSegments a.path b.path != .gt) = true :=
    List.pairwise_of_forall_mem_list fun a ha b hb => by
      have hself : compare p p = .eq := Std.LawfulEqCmp.compare_eq_iff_eq.mpr rfl
      rw [segmentsLE_iff, beq_iff_eq.mp (List.mem_filter.mp ha).2,
        beq_iff_eq.mp (List.mem_filter.mp hb).2, hself]
      decide
  have hsub : List.Sublist (es.filter (·.path == p)) ((sortEntries es).filter (·.path == p)) := by
    have h := (List.sublist_mergeSort segmentsLE_trans segmentsLE_total hle
      List.filter_sublist).filter (·.path == p)
    rwa [List.filter_filter, List.filter_congr fun e _ => Bool.and_self (e.path == p)] at h
  exact (hsub.eq_of_length ((List.mergeSort_perm es _).filter _).length_eq.symm).symm

/-- **Sorting forgets the order** of files as long as files with one path are one file. -/
theorem sortEntries_eq_of_perm {es es' : List FileEntry} (hperm : es.Perm es')
    (hsame : ∀ a ∈ es', ∀ b ∈ es', a.path = b.path → a = b) :
    sortEntries es = sortEntries es' := by
  refine List.Perm.eq_of_pairwise (fun a b ha hb hab hba => ?_) (pairwise_sortEntries_le es)
    (pairwise_sortEntries_le es') ((List.mergeSort_perm es _).trans
      (hperm.trans (List.mergeSort_perm es' _).symm))
  -- two files in order both ways have one path
  have hpath : a.path = b.path := by
    cases h : compare a.path b.path
    · exact absurd (Std.OrientedCmp.gt_iff_lt.mpr h) hba
    · exact Std.LawfulEqCmp.compare_eq_iff_eq.mp h
    · exact absurd h hab
  exact hsame a (hperm.subset (List.mem_mergeSort.mp ha)) b (List.mem_mergeSort.mp hb) hpath

/-- **The order shows** when two different files have one path: the sort keeps them in the
order they came in. -/
theorem sortEntries_swap_ne {a b : FileEntry} (rest : List FileEntry) (hpath : a.path = b.path)
    (hne : a ≠ b) : sortEntries (a :: b :: rest) ≠ sortEntries (b :: a :: rest) := by
  intro h
  have hfilter := congrArg (List.filter (·.path == a.path)) h
  rw [filter_sortEntries, filter_sortEntries] at hfilter
  simp only [List.filter_cons, ← hpath, beq_self_eq_true, if_true, List.cons.injEq] at hfilter
  exact hne hfilter.1

/-- Sorting files puts them in strictly ascending order exactly when their paths differ. -/
theorem pairwise_sortEntries_iff {es : List FileEntry} :
    (sortEntries es).Pairwise (fun a b => compare a.path b.path = .lt) ↔
      (es.map (·.path)).Nodup := by
  have hperm : ((sortEntries es).map (·.path)).Perm (es.map (·.path)) :=
    (List.mergeSort_perm es _).map _
  rw [← hperm.nodup_iff, List.nodup_iff_pairwise_ne, List.pairwise_map]
  constructor
  · intro h
    refine h.imp fun {a b} hab heq => ?_
    have hself : compare a.path b.path = .eq := Std.LawfulEqCmp.compare_eq_iff_eq.mpr heq
    rw [hab] at hself
    cases hself
  · intro hne
    refine (hne.and (pairwise_sortEntries_le es)).imp fun {a b} hab => ?_
    obtain ⟨hne, hle⟩ := hab
    cases h : compare a.path b.path
    · rfl
    · exact absurd (Std.LawfulEqCmp.compare_eq_iff_eq.mp h) hne
    · exact absurd h hle

/-! ## Places, names and nodes -/

namespace Disk

variable {d : Disk}

/-- A place below the root holds a node exactly when it is one of the disk's places. -/
theorem isSome_lookup_iff {loc : Loc} (hne : loc ≠ []) :
    (d.lookup loc).isSome ↔ loc ∈ d.nodes.map Prod.fst := by
  simp [lookup, hne, List.find?_isSome]

/-- A place is listed under a directory, by its last name, exactly when it is the
directory's place with that name added. -/
theorem childName_eq_some_iff {dir l : Loc} {name : ByteArray} :
    (if (l.dropLast == dir) = true ∧ l.length = dir.length + 1 then l.getLast? else none) =
      some name ↔ l = dir ++ [name] := by
  constructor
  · intro h
    split at h
    · rename_i hdir
      calc l = l.dropLast ++ [name] := (List.dropLast_append_getLast? name h).symm
        _ = dir ++ [name] := by rw [beq_iff_eq.mp hdir.1]
    · cases h
  · rintro rfl
    simp

/-- A directory lists a name exactly when the place below it with that name is one of
the disk's places. -/
theorem mem_children_iff {dir : Loc} {name : ByteArray} :
    name ∈ d.children dir ↔ dir ++ [name] ∈ d.nodes.map Prod.fst := by
  simp only [children, List.mem_filterMap, List.mem_map]
  constructor
  · rintro ⟨⟨l, n⟩, hmem, h⟩
    exact ⟨(l, n), hmem, childName_eq_some_iff.mp h⟩
  · rintro ⟨⟨l, n⟩, hmem, rfl⟩
    exact ⟨(dir ++ [name], n), hmem, childName_eq_some_iff.mpr rfl⟩

/-- A place below a directory that holds a node is one of the disk's places. -/
theorem mem_places_of_lookup {dir : Loc} {name : ByteArray} {n : Node}
    (h : d.lookup (dir ++ [name]) = some n) : dir ++ [name] ∈ d.nodes.map Prod.fst :=
  (isSome_lookup_iff (by simp)).mp (by simp [h])

/-- A directory lists every name below it that holds a node. -/
theorem mem_children_of_lookup {dir : Loc} {name : ByteArray} {n : Node}
    (h : d.lookup (dir ++ [name]) = some n) : name ∈ d.children dir :=
  mem_children_iff.mpr (mem_places_of_lookup h)

/-- On a disk that maps each place to one node, a directory lists each name once. -/
theorem nodup_children (hmap : (d.nodes.map Prod.fst).Nodup) (dir : Loc) :
    (d.children dir).Nodup := by
  have hchildren : d.children dir = (d.nodes.map Prod.fst).filterMap fun l =>
      if (l.dropLast == dir) = true ∧ l.length = dir.length + 1 then l.getLast? else none := by
    rw [List.filterMap_map]
    rfl
  rw [hchildren]
  exact hmap.filterMap fun l l' name hl hl' =>
    (childName_eq_some_iff.mp hl).trans (childName_eq_some_iff.mp hl').symm

/-! ## What a walk reports -/

/-- The length a walk that does not follow links reports for what a place holds: a
regular file's length, or the length of a link's text; a directory it walks into
instead. -/
def walkLen (d : Disk) : Node → Option Nat
  | .dir => none
  | .file i => some (d.blob i).size
  | .link t => some t.utf8ByteSize

/-- `d.Finds exclude dir sub len`: a walk of the directory `dir` that does not follow
links and skips hidden names reports the file at the names `sub` below it, of length
`len`. -/
inductive Finds (d : Disk) (exclude : Option Loc) : Loc → Loc → Nat → Prop
  /-- a regular file or a link in the directory itself, other than the excluded place -/
  | here {dir : Loc} {name : ByteArray} {n : Node} {len : Nat} :
      isHidden name = false → d.lookup (dir ++ [name]) = some n → d.walkLen n = some len →
      exclude ≠ some (dir ++ [name]) → Finds d exclude dir [name] len
  /-- a file found in a subdirectory whose name is not hidden -/
  | under {dir : Loc} {name : ByteArray} {sub : Loc} {len : Nat} :
      isHidden name = false → d.lookup (dir ++ [name]) = some .dir →
      Finds d exclude (dir ++ [name]) sub len → Finds d exclude dir (name :: sub) len

variable {exclude : Option Loc}

theorem Finds.ne_nil {dir sub : Loc} {len : Nat} (h : d.Finds exclude dir sub len) :
    sub ≠ [] := by
  cases h <;> simp

/-- A place holds one node, so a reported file has one length. -/
theorem Finds.len_eq {dir sub : Loc} {len len' : Nat}
    (h : d.Finds exclude dir sub len) (h' : d.Finds exclude dir sub len') : len = len' := by
  induction h with
  | here _ hn hlen _ =>
    cases h' with
    | here _ hn' hlen' _ =>
      rw [hn] at hn'
      cases hn'
      rw [hlen] at hlen'
      exact Option.some.inj hlen'
    | under _ _ hfinds => exact absurd rfl hfinds.ne_nil
  | under _ hdir _ ih =>
    cases h' with
    | here _ hn hlen _ =>
      rw [hdir] at hn
      cases hn
      cases hlen
    | under _ _ hfinds => exact ih hfinds

/-- Every place from the directory down to a reported file is one of the disk's places. -/
theorem Finds.prefix_mem {dir sub : Loc} {len : Nat} (h : d.Finds exclude dir sub len) :
    ∀ k < sub.length, dir ++ sub.take (k + 1) ∈ d.nodes.map Prod.fst := by
  induction h with
  | here _ hn _ _ =>
    intro k hk
    obtain rfl : k = 0 := by simpa using hk
    exact mem_places_of_lookup hn
  | @under dir name sub len _ hdir _ ih =>
    intro k hk
    cases k with
    | zero => exact mem_places_of_lookup hdir
    | succ j =>
      have hj : j < sub.length := by simpa using hk
      simpa using ih j hj

/-- A reported file lies no deeper than the disk has places: each directory on the way,
and the file, is a place of its own. -/
theorem Finds.length_le {dir sub : Loc} {len : Nat} (h : d.Finds exclude dir sub len) :
    sub.length ≤ d.nodes.length := by
  have hnodup : ((List.range sub.length).map fun k => dir ++ sub.take (k + 1)).Nodup := by
    refine List.Nodup.map_on (fun j hj k hk heq => ?_) List.nodup_range
    have hlen := congrArg List.length heq
    simp only [List.mem_range] at hj hk
    simp only [List.length_append, List.length_take] at hlen
    omega
  have hsub : ((List.range sub.length).map fun k => dir ++ sub.take (k + 1)) ⊆
      d.nodes.map Prod.fst := by
    intro loc hloc
    obtain ⟨k, hk, rfl⟩ := List.mem_map.mp hloc
    exact h.prefix_mem k (List.mem_range.mp hk)
  simpa using hnodup.length_le_of_subset hsub

/-! ## The walk, one directory entry at a time -/

/-- **One entry of a directory.** Visiting a name reports the files of a subdirectory
walked below it, or the one file it names, with its length and not excluded, or nothing:
never anything for a hidden name. -/
theorem mem_visit_iff {walkDir : Loc → Loc → List WalkEntry} {dir rel : Loc}
    {name : ByteArray} {e : WalkEntry} :
    e ∈ d.visit exclude walkDir dir rel name ↔ isHidden name = false ∧
      ((d.lookup (dir ++ [name]) = some .dir ∧ e ∈ walkDir (dir ++ [name]) (rel ++ [name])) ∨
        ∃ n, d.lookup (dir ++ [name]) = some n ∧ d.walkLen n = some e.len ∧
          exclude ≠ some (dir ++ [name]) ∧ e.rel = rel ++ [name]) := by
  obtain ⟨path, len⟩ := e
  unfold visit
  cases hhid : isHidden name with
  | true => simp
  | false =>
    simp only [Bool.false_eq_true, if_false, true_and]
    cases hl : d.lookup (dir ++ [name]) with
    | none => simp
    | some n =>
      cases n with
      | dir => simp [walkLen]
      | file i =>
        by_cases hex : exclude = some (dir ++ [name]) <;>
          simp [hex, walkLen, WalkEntry.mk.injEq, and_comm, eq_comm]
      | link t =>
        by_cases hex : exclude = some (dir ++ [name]) <;>
          simp [hex, walkLen, WalkEntry.mk.injEq, and_comm, eq_comm]

/-- **The walk reports what it finds.** A walk of `fuel` levels reports, under the
names `rel`, exactly the files found below the directory no deeper than `fuel`. -/
theorem mem_collect_iff {fuel : Nat} {dir rel : Loc} {e : WalkEntry} :
    e ∈ d.collect exclude fuel dir rel ↔
      ∃ sub, e.rel = rel ++ sub ∧ sub.length ≤ fuel ∧ d.Finds exclude dir sub e.len := by
  obtain ⟨path, len⟩ := e
  induction fuel generalizing dir rel path with
  | zero =>
    simp only [collect, List.not_mem_nil, false_iff, not_exists, not_and]
    intro sub _ hlen hfinds
    exact hfinds.ne_nil (List.eq_nil_of_length_eq_zero (by omega))
  | succ fuel ih =>
    rw [collect, List.mem_flatMap]
    constructor
    · rintro ⟨name, -, he⟩
      obtain ⟨hvis, ⟨hdir, hsub⟩ | ⟨n, hn, hlen, hex, hpath⟩⟩ := mem_visit_iff.mp he
      · -- a file of a subdirectory, one level further down
        obtain ⟨sub, hpath, hle, hfinds⟩ := (ih _).mp hsub
        refine ⟨name :: sub, by simpa using hpath, by simpa using hle, .under hvis hdir hfinds⟩
      · exact ⟨[name], hpath, by simp, .here hvis hn hlen hex⟩
    · rintro ⟨sub, hpath, hle, hfinds⟩
      cases hfinds with
      | @here _ name n _ hvis hn hlen hex =>
        exact ⟨name, mem_children_of_lookup hn,
          mem_visit_iff.mpr ⟨hvis, .inr ⟨n, hn, hlen, hex, hpath⟩⟩⟩
      | @under _ name sub _ hvis hdir hfinds =>
        have hsub : (⟨path, len⟩ : WalkEntry) ∈ d.collect exclude fuel (dir ++ [name])
            (rel ++ [name]) :=
          (ih _).mpr ⟨sub, by simpa using hpath, by simpa using hle, hfinds⟩
        exact ⟨name, mem_children_of_lookup hdir,
          mem_visit_iff.mpr ⟨hvis, .inl ⟨hdir, hsub⟩⟩⟩

/-- A walk with more levels than the disk has places reports every file found. -/
theorem mem_collect_iff_finds {dir : Loc} {e : WalkEntry} :
    e ∈ d.collect exclude (d.nodes.length + 1) dir [] ↔ d.Finds exclude dir e.rel e.len := by
  rw [mem_collect_iff]
  constructor
  · rintro ⟨sub, hpath, -, hfinds⟩
    rwa [hpath, List.nil_append]
  · intro hfinds
    exact ⟨e.rel, rfl, Nat.le_succ_of_le hfinds.length_le, hfinds⟩

/-- Files visited under one name lie below it, as long as a subdirectory's walk keeps its
files below the subdirectory. -/
theorem rel_of_mem_visit {walkDir : Loc → Loc → List WalkEntry} {dir rel : Loc}
    {name : ByteArray} {e : WalkEntry}
    (hwalk : ∀ loc rel' e', e' ∈ walkDir loc rel' → ∃ sub, e'.rel = rel' ++ sub)
    (he : e ∈ d.visit exclude walkDir dir rel name) : ∃ sub, e.rel = rel ++ name :: sub := by
  obtain ⟨-, ⟨-, hsub⟩ | ⟨-, -, -, -, hpath⟩⟩ := mem_visit_iff.mp he
  · obtain ⟨sub, hpath⟩ := hwalk _ _ _ hsub
    exact ⟨sub, by simpa using hpath⟩
  · exact ⟨[], by simpa using hpath⟩

/-- A visit reports each place once, as long as a subdirectory's walk does. -/
theorem nodup_rels_visit {walkDir : Loc → Loc → List WalkEntry} {dir rel : Loc}
    {name : ByteArray} (hwalk : ∀ loc rel', ((walkDir loc rel').map (·.rel)).Nodup) :
    ((d.visit exclude walkDir dir rel name).map (·.rel)).Nodup := by
  unfold visit
  dsimp only
  split
  · exact List.nodup_nil
  · split
    · exact hwalk _ _
    · split <;> simp
    · split <;> simp
    · exact List.nodup_nil

/-- **Each file once.** On a disk that maps each place to one node, a walk reports each
place once: names differ within a directory, and what lies below two names differs. -/
theorem nodup_rels_collect (hmap : (d.nodes.map Prod.fst).Nodup) :
    ∀ (fuel : Nat) (dir rel : Loc), ((d.collect exclude fuel dir rel).map (·.rel)).Nodup
  | 0, _, _ => List.nodup_nil
  | fuel + 1, dir, rel => by
    have hbelow : ∀ loc rel' e', e' ∈ d.collect exclude fuel loc rel' →
        ∃ sub, e'.rel = rel' ++ sub := fun _ _ _ he' => by
      obtain ⟨sub, hpath, -⟩ := mem_collect_iff.mp he'
      exact ⟨sub, hpath⟩
    rw [collect, List.map_flatMap, List.nodup_flatMap]
    refine ⟨fun name _ => nodup_rels_visit (nodup_rels_collect hmap fuel),
      (nodup_children hmap dir).imp fun {a b} hab => ?_⟩
    -- what lies below two different names has different places
    intro p hpa hpb
    obtain ⟨e, he, rfl⟩ := List.mem_map.mp hpa
    obtain ⟨e', he', hpath⟩ := List.mem_map.mp hpb
    obtain ⟨sub, hsub⟩ := rel_of_mem_visit hbelow he
    obtain ⟨sub', hsub'⟩ := rel_of_mem_visit hbelow he'
    rw [hsub, hsub', List.append_cancel_left_eq, List.cons.injEq] at hpath
    exact hab hpath.1.symm

/-! ## The orders a walk may yield the files in -/

/-- `d.WalkOrder exclude dir ws`: the list `ws` holds each file a walk of `dir` finds,
once, in some order. -/
def WalkOrder (d : Disk) (exclude : Option Loc) (dir : Loc) (ws : List WalkEntry) : Prop :=
  ws.Nodup ∧ ∀ w, w ∈ ws ↔ d.Finds exclude dir w.rel w.len

variable {dir : Loc} {ws ws' : List WalkEntry}

/-- The walk itself yields the files in one of the orders. -/
theorem walkOrder_collect (hmap : (d.nodes.map Prod.fst).Nodup) (dir : Loc) :
    d.WalkOrder exclude dir (d.collect exclude (d.nodes.length + 1) dir []) :=
  ⟨List.Nodup.of_map _ (nodup_rels_collect hmap _ _ _), fun _ => mem_collect_iff_finds⟩

/-- Two orders of the files found are permutations of each other. -/
theorem WalkOrder.perm (h : d.WalkOrder exclude dir ws) (h' : d.WalkOrder exclude dir ws') :
    ws.Perm ws' :=
  (List.perm_ext_iff_of_nodup h.1 h'.1).mpr fun w => (h.2 w).trans (h'.2 w).symm

theorem WalkOrder.of_perm (h : d.WalkOrder exclude dir ws) (hp : ws.Perm ws') :
    d.WalkOrder exclude dir ws' :=
  ⟨hp.nodup_iff.mp h.1, fun w => hp.mem_iff.symm.trans (h.2 w)⟩

/-- Any two different files found can come first, in either order. -/
theorem WalkOrder.exists_pair (h : d.WalkOrder exclude dir ws) {w w' : WalkEntry}
    (hw : d.Finds exclude dir w.rel w.len) (hw' : d.Finds exclude dir w'.rel w'.len)
    (hne : w ≠ w') :
    ∃ rest, d.WalkOrder exclude dir (w :: w' :: rest) ∧
      d.WalkOrder exclude dir (w' :: w :: rest) := by
  have hmem : w ∈ ws := (h.2 w).mpr hw
  have hmem' : w' ∈ ws.erase w := (List.mem_erase_of_ne hne.symm).mpr ((h.2 w').mpr hw')
  have hperm : ws.Perm (w :: w' :: (ws.erase w).erase w') :=
    (List.perm_cons_erase hmem).trans (.cons w (List.perm_cons_erase hmem'))
  exact ⟨_, h.of_perm hperm, h.of_perm (hperm.trans (.swap w' w _))⟩

/-- In every order, the sort lists exactly the files found, each read as text. -/
theorem WalkOrder.mem_sortEntries_iff (h : d.WalkOrder exclude dir ws) (e : FileEntry) :
    e ∈ sortEntries (ws.map WalkEntry.entry) ↔
      ∃ w : WalkEntry, d.Finds exclude dir w.rel w.len ∧ w.entry = e := by
  rw [sortEntries, List.mem_mergeSort, List.mem_map]
  exact exists_congr fun w => and_congr_left fun _ => h.2 w

/-- In every order, the files' paths differ exactly when no two files found read as the
same segments. -/
theorem WalkOrder.nodup_paths_iff (h : d.WalkOrder exclude dir ws) :
    ((ws.map WalkEntry.entry).map (·.path)).Nodup ↔
      ∀ w w' : WalkEntry, d.Finds exclude dir w.rel w.len → d.Finds exclude dir w'.rel w'.len →
        w.entry.path = w'.entry.path → w = w' := by
  rw [List.map_map, List.nodup_map_iff_inj_on h.1]
  constructor
  · intro hinj w w' hw hw' hpath
    exact hinj w ((h.2 w).mpr hw) w' ((h.2 w').mpr hw') hpath
  · intro hinj w hw w' hw' hpath
    exact hinj w w' ((h.2 w).mp hw) ((h.2 w').mp hw') hpath

end Disk

/-! ## Scanning a directory in any order -/

/-- What a scan of the directory at `loc` answers when the walk yields its files in the
order `ws`. -/
def scanIn (rootName : String) (loc : Loc) (ws : List WalkEntry) : Except (List String) Scan :=
  if ws = [] then .error [s!"No files found in {showPath (Loc.path loc)}"]
  else
    .ok ⟨(loc.getLast?.map Utf8.lossy).getD rootName, Loc.path loc,
      FileList.multi (sortEntries (ws.map WalkEntry.entry))⟩

/-- A scan of a place that is not a regular file answers for the order its walk yields. -/
theorem scanFiles_of_walk {d : Disk} {rootName source : String} {output : Option String}
    {loc : Loc} (hloc : d.canonicalize source = .ok loc)
    (hdir : ∀ i, d.lookup loc ≠ some (.file i)) :
    scanFiles d rootName source output =
      scanIn rootName loc (d.collect (d.outputPlace output) (d.nodes.length + 1) loc []) := by
  -- the match on the source's node sees `hdir` and drops the file branch
  simp only [scanFiles, hloc, Except.mapError, bind, Except.bind]
  rw [scanIn, List.isEmpty_map]
  by_cases hnil : d.collect (d.outputPlace output) (d.nodes.length + 1) loc [] = []
  · rw [hnil, if_pos List.isEmpty_nil, if_pos rfl]
    rfl
  · rw [if_neg (by simpa using hnil), if_neg hnil]
    rfl

section Orders

variable {d : Disk} {exclude : Option Loc} {loc : Loc} {rootName : String}

/-- **When the walk's order shows.** Every two orders of the files found give one answer
exactly when files found that read as the same segments have one length. -/
theorem scanIn_order_free_iff (hmap : (d.nodes.map Prod.fst).Nodup) :
    (∀ ws ws', d.WalkOrder exclude loc ws → d.WalkOrder exclude loc ws' →
      scanIn rootName loc ws = scanIn rootName loc ws') ↔
    ∀ w w' : WalkEntry, d.Finds exclude loc w.rel w.len → d.Finds exclude loc w'.rel w'.len →
      w.entry.path = w'.entry.path → w.len = w'.len := by
  constructor
  · intro hfree w w' hw hw' hpath
    by_contra hlen
    have hne : w ≠ w' := fun h => hlen (congrArg WalkEntry.len h)
    obtain ⟨rest, h₁, h₂⟩ := (Disk.walkOrder_collect hmap loc).exists_pair hw hw' hne
    -- both orders are non-empty, so their answers are their sorts, which keep `w` and `w'`
    -- in the order they came in
    have hscan := hfree _ _ h₁ h₂
    simp only [scanIn, reduceCtorEq, if_false, Except.ok.injEq, Scan.mk.injEq,
      FileList.multi, true_and, List.map_cons] at hscan
    exact sortEntries_swap_ne _ hpath (fun he => hlen (congrArg FileEntry.len he))
      (FileList.mk.inj hscan).2
  · intro hsame ws ws' h h'
    have hperm := h.perm h'
    by_cases hnil : ws = []
    · subst hnil
      rw [List.nil_perm.mp hperm]
    · have hnil' : ws' ≠ [] := fun h'nil => hnil (List.perm_nil.mp (h'nil ▸ hperm))
      rw [scanIn, scanIn, if_neg hnil, if_neg hnil',
        sortEntries_eq_of_perm (hperm.map _) fun a ha b hb hpath => ?_]
      -- two files found with one path have one length, so they are one entry
      obtain ⟨w, hw, rfl⟩ := List.mem_map.mp ha
      obtain ⟨w', hw', rfl⟩ := List.mem_map.mp hb
      have hlen := hsame w w' ((h'.2 w).mp hw) ((h'.2 w').mp hw') hpath
      exact congrArg₂ FileEntry.mk hpath hlen

end Orders

/-- **What a scan finds, and when the walk's order shows.** On a disk that maps each place
to one node, a source that cannot be resolved is an error naming it, and a regular file
gives the single layout named after its place, read as text, with its length. A directory
is answered for the order its walk yields the files found in; in every such order the
answer lists exactly those files, each with its names read as text and its length, in
segment order, and strictly ascending exactly when no two of them read as the same
segments; and every two orders give one answer exactly when files that read as the same
segments have one length. -/
theorem scan_walk_order {d : Disk} (hmap : (d.nodes.map Prod.fst).Nodup)
    (rootName source : String) (output : Option String) :
    (∀ err, d.canonicalize source = .error err → scanFiles d rootName source output =
      .error [s!"Failed to resolve source path: {source}", err.message]) ∧
    (∀ loc i, d.canonicalize source = .ok loc → d.lookup loc = some (.file i) →
      scanFiles d rootName source output =
        .ok ⟨(loc.getLast?.map Utf8.lossy).getD rootName, Loc.path loc,
          FileList.single ((loc.getLast?.map Utf8.lossy).getD rootName) (d.blob i).size⟩) ∧
    (∀ loc, d.canonicalize source = .ok loc → (∀ i, d.lookup loc ≠ some (.file i)) →
      (∃ ws, d.WalkOrder (d.outputPlace output) loc ws ∧
        scanFiles d rootName source output = scanIn rootName loc ws) ∧
      (∀ ws, d.WalkOrder (d.outputPlace output) loc ws →
        (∀ e, e ∈ sortEntries (ws.map WalkEntry.entry) ↔
          ∃ w : WalkEntry, d.Finds (d.outputPlace output) loc w.rel w.len ∧ w.entry = e) ∧
        (sortEntries (ws.map WalkEntry.entry)).Pairwise
          (fun a b => compare a.path b.path ≠ .gt) ∧
        ((sortEntries (ws.map WalkEntry.entry)).Pairwise
            (fun a b => compare a.path b.path = .lt) ↔
          ∀ w w' : WalkEntry, d.Finds (d.outputPlace output) loc w.rel w.len →
            d.Finds (d.outputPlace output) loc w'.rel w'.len →
            w.entry.path = w'.entry.path → w = w')) ∧
      ((∀ ws ws', d.WalkOrder (d.outputPlace output) loc ws →
          d.WalkOrder (d.outputPlace output) loc ws' →
          scanIn rootName loc ws = scanIn rootName loc ws') ↔
        ∀ w w' : WalkEntry, d.Finds (d.outputPlace output) loc w.rel w.len →
          d.Finds (d.outputPlace output) loc w'.rel w'.len →
          w.entry.path = w'.entry.path → w.len = w'.len)) := by
  refine ⟨fun err herr => ?_, fun loc i hloc hfile => ?_, fun loc hloc hdir => ?_⟩
  · simp only [scanFiles, herr, Except.mapError, bind, Except.bind]
  · simp only [scanFiles, hloc, hfile, Except.mapError, bind, Except.bind]
    rfl
  · refine ⟨⟨_, Disk.walkOrder_collect hmap loc, scanFiles_of_walk hloc hdir⟩,
      fun ws h => ⟨h.mem_sortEntries_iff, pairwise_sortEntries_le _, ?_⟩,
      scanIn_order_free_iff hmap⟩
    rw [pairwise_sortEntries_iff, h.nodup_paths_iff]

/-- The path `d` leads to a directory `d` at the top of the disk. -/
theorem Disk.canonicalize_d {d : Disk} (hd : d.lookup ["d".toUTF8] = some .dir) :
    d.canonicalize "d" = .ok ["d".toUTF8] := by
  -- the path's text is written through its bytes in the walk
  have hd' : d.lookup ["d".toByteArray] = some .dir := hd
  rw [Disk.canonicalize, Disk.resolve, if_neg (by decide +kernel),
    show Path.split "d" = ["d"] by decide]
  simp [Disk.walk, hd']

theorem Disk.ne_file_of_dir {d : Disk} {loc : Loc} (hd : d.lookup loc = some .dir) :
    ∀ i, d.lookup loc ≠ some (.file i) := fun i h => by
  rw [hd] at h
  cases h

/-- A disk with the directory `d` holding two files whose names are not UTF-8 and read as
the same text: `a` and the byte `0xFF`, of one byte, and `a` and the byte `0xFE`, of two. -/
def Disk.lossyPair : Disk :=
  ⟨[(["d".toUTF8], .dir), (["d".toUTF8, ⟨#[0x61, 0xFF]⟩], .file 0),
      (["d".toUTF8, ⟨#[0x61, 0xFE]⟩], .file 1)],
    [Blob.ofBytes ⟨#[120]⟩, Blob.ofBytes ⟨#[120, 121]⟩]⟩

/-- Two names that read as the same text make the walk's order show: the scan of `d`
depends on which of the two files the walk yields first. -/
theorem lossyPair_scan_depends_on_order :
    ∃ ws ws', Disk.lossyPair.WalkOrder none ["d".toUTF8] ws ∧
      Disk.lossyPair.WalkOrder none ["d".toUTF8] ws' ∧
      scanIn "root" ["d".toUTF8] ws ≠ scanIn "root" ["d".toUTF8] ws' := by
  obtain ⟨-, -, hdir⟩ := @scan_walk_order Disk.lossyPair (by decide +kernel) "root" "d" none
  have hd : Disk.lossyPair.lookup ["d".toUTF8] = some .dir := by decide +kernel
  obtain ⟨-, -, hfree⟩ := hdir ["d".toUTF8] (Disk.canonicalize_d hd) (Disk.ne_file_of_dir hd)
  have hlff : Disk.lossyPair.lookup (["d".toUTF8] ++ [⟨#[0x61, 0xFF]⟩]) = some (.file 0) := by
    decide +kernel
  have hlfe : Disk.lossyPair.lookup (["d".toUTF8] ++ [⟨#[0x61, 0xFE]⟩]) = some (.file 1) := by
    decide +kernel
  have hff : Disk.lossyPair.Finds none ["d".toUTF8] [⟨#[0x61, 0xFF]⟩] 1 :=
    .here (by decide +kernel) hlff rfl (by simp)
  have hfe : Disk.lossyPair.Finds none ["d".toUTF8] [⟨#[0x61, 0xFE]⟩] 2 :=
    .here (by decide +kernel) hlfe rfl (by simp)
  -- the two files read as the same segments but have different lengths
  have hsame : (⟨[⟨#[0x61, 0xFF]⟩], 1⟩ : WalkEntry).entry.path =
      (⟨[⟨#[0x61, 0xFE]⟩], 2⟩ : WalkEntry).entry.path := by
    decide +kernel
  have hnotfree := mt hfree.mp fun hall =>
    absurd (hall ⟨[⟨#[0x61, 0xFF]⟩], 1⟩ ⟨[⟨#[0x61, 0xFE]⟩], 2⟩ hff hfe hsame) (by decide)
  by_contra hnone
  exact hnotfree fun ws ws' h h' =>
    Classical.byContradiction fun hne => hnone ⟨ws, ws', h, h', hne⟩

/-- A disk with the directory `d` holding the two-byte file `b`, the link `a` to it and
the hidden file `.h`, made in that order. -/
def Disk.linkedPair : Disk :=
  ⟨[(["d".toUTF8], .dir), (["d".toUTF8, "b".toUTF8], .file 0),
      (["d".toUTF8, "a".toUTF8], .link "b"), (["d".toUTF8, ".h".toUTF8], .file 0)],
    [Blob.ofBytes ⟨#[120, 121]⟩]⟩

/-- The regular file `.h` of `d` is hidden: scanning `d`, whose walk yields `b` before
`a`, gives `a` first, the link with the length of its text, then `b`, and not `.h`. -/
theorem hiddenFile_not_scanned :
    Disk.linkedPair.lookup ["d".toUTF8, ".h".toUTF8] = some (.file 0) ∧
      scanFiles Disk.linkedPair "root" "d" none =
        .ok ⟨"d", "d", FileList.multi [⟨["a"], 1⟩, ⟨["b"], 2⟩]⟩ := by
  have hwalk : Disk.linkedPair.collect none (Disk.linkedPair.nodes.length + 1) ["d".toUTF8] [] =
      [⟨["b".toUTF8], 2⟩, ⟨["a".toUTF8], 1⟩] := by decide +kernel
  have hentries : [(⟨["b".toUTF8], 2⟩ : WalkEntry), ⟨["a".toUTF8], 1⟩].map WalkEntry.entry =
      [⟨["b"], 2⟩, ⟨["a"], 1⟩] := by decide +kernel
  -- the walk's order is sorted by swapping its two files, whose paths differ
  have hsorted : sortEntries [⟨["b"], 2⟩, ⟨["a"], 1⟩] = [⟨["a"], 1⟩, ⟨["b"], 2⟩] := by
    rw [sortEntries_eq_of_perm (.swap ⟨["a"], 1⟩ ⟨["b"], 2⟩ []) (by decide)]
    exact List.mergeSort_of_pairwise (by decide +kernel)
  refine ⟨by decide +kernel, ?_⟩
  have hd : Disk.linkedPair.lookup ["d".toUTF8] = some .dir := by decide +kernel
  rw [scanFiles_of_walk (Disk.canonicalize_d hd) (Disk.ne_file_of_dir hd),
    show Disk.linkedPair.outputPlace none = none from rfl, hwalk, scanIn,
    if_neg (List.cons_ne_nil _ _), hentries, hsorted]
  decide +kernel

end Metainfo
