import Metainfo.Disk.Basic

/-!
# Nothing below a file

A walk that reaches a regular file cannot go on: a path that continues past a file
names nothing, which the operating system reports as "not a directory". This module
says so for the paths the library builds by pushing components onto a path:

* `Path.split_append_slash`: a `/` between two texts splits them apart;
* `Disk.walk_append_of_file`: a walk that ends on a file fails as soon as anything follows
  it;
* `Disk.exists_getLast?_of_walk_file`: a walk ends on a file only at a last part that is
  not empty, so no path ending in `/` leads to a file;
* `Disk.resolve_push_of_file`: below a path that leads to a file, every pushed component
  leads nowhere.
-/

namespace Metainfo

namespace Path

/-- A `/` between two texts splits them apart. -/
theorem split_append_slash (a b : String) : split (a ++ "/" ++ b) = split a ++ split b := by
  have hslash : "/".toList = ['/'] := rfl
  simp only [split, String.toList_append, hslash, List.append_assoc, List.singleton_append,
    List.splitOn_append_cons_self, List.map_append]

theorem split_empty : split "" = [""] := rfl

theorem split_ne_nil (a : String) : split a ≠ [] := by
  simp [split]

theorem eq_append_slash_of_endsWith {p : String} (h : p.endsWith "/" = true) :
    ∃ q, p = q ++ "/" := by
  have hsuffix : "/".toList <:+ p.toList := by
    simpa using (@String.Slice.endsWith_string_iff "/" p.toSlice).mp h
  obtain ⟨q, hq⟩ := hsuffix
  refine ⟨String.ofList q, String.toList_injective ?_⟩
  simp [← hq]

end Path

namespace Disk

/-- **A file ends every walk.** A walk that ends on a file fails, not a directory, once
any part follows it. -/
theorem walk_append_of_file (d : Disk) (follow : Bool) (hops : Nat) (dir : Loc)
    (comps : List String) {loc : Loc} {i : Nat} {more : List String} (hmore : more ≠ []) :
    d.walk follow hops dir comps = .ok (.node loc (.file i)) →
      d.walk follow hops dir (comps ++ more) = .error .notDirectory := by
  fun_induction d.walk follow hops dir comps with
  | case1 => intro h; cases h
  | case2 _ _ c rest hc ih =>
    intro h
    rw [List.cons_append, walk, if_pos hc]
    exact ih h
  | case3 => intro h; cases h
  | case4 _ dir rest hdir hdot ih =>
    intro h
    rw [List.cons_append, walk, if_neg hdot, if_pos rfl, if_neg hdir]
    exact ih h
  | case5 => intro h; cases h
  | case6 => intro h; cases h
  | case7 _ dir c rest hc hdd _ hlook ih =>
    intro h
    have hlook : d.lookup (dir ++ [c.toUTF8]) = some .dir := hlook
    rw [List.cons_append, walk, if_neg hc, if_neg hdd]
    simp only [hlook]
    exact ih h
  | case8 _ dir c rest hc hdd _ j hlook _ =>
    -- the file was the last part, and now a part follows it
    intro _
    have hlook : d.lookup (dir ++ [c.toUTF8]) = some (.file j) := hlook
    have hne : (rest ++ more).isEmpty = false := by simp [hmore]
    rw [List.cons_append, walk, if_neg hc, if_neg hdd]
    simp only [hlook, hne, Bool.false_eq_true, ↓reduceIte]
  | case9 => intro h; cases h
  | case10 => intro h; simp at h
  | case11 => intro h; cases h
  | case12 => intro h; cases h
  | case13 dir c rest hc hdd _ t hlook _ k habs ih =>
    intro h
    have hlook : d.lookup (dir ++ [c.toUTF8]) = some (.link t) := hlook
    have hne : ¬ ((rest ++ more).isEmpty = true ∧ (!follow) = true) := by simp [hmore]
    rw [List.cons_append, walk, if_neg hc, if_neg hdd]
    simp only [hlook, hne, ↓reduceIte, habs, ← List.append_assoc]
    exact ih h

/-- A walk ends on a file only at a last part that is a name, never an empty one. -/
theorem exists_getLast?_of_walk_file (d : Disk) (follow : Bool) (hops : Nat) (dir : Loc)
    (comps : List String) {loc : Loc} {i : Nat} :
    d.walk follow hops dir comps = .ok (.node loc (.file i)) →
      ∃ c, comps.getLast? = some c ∧ c ≠ "" := by
  fun_induction d.walk follow hops dir comps with
  | case1 => intro h; cases h
  | case2 _ _ c rest _ ih =>
    intro h
    obtain ⟨c', hlast, hc'⟩ := ih h
    exact ⟨c', by simp [List.getLast?_cons, hlast], hc'⟩
  | case3 => intro h; cases h
  | case4 _ _ rest _ _ ih =>
    intro h
    obtain ⟨c', hlast, hc'⟩ := ih h
    exact ⟨c', by simp [List.getLast?_cons, hlast], hc'⟩
  | case5 => intro h; cases h
  | case6 => intro h; cases h
  | case7 _ _ c rest _ _ _ _ ih =>
    intro h
    obtain ⟨c', hlast, hc'⟩ := ih h
    exact ⟨c', by simp [List.getLast?_cons, hlast], hc'⟩
  | case8 _ _ c rest hc _ _ _ _ hrest =>
    -- the file is the last part, a name
    intro _
    rw [List.isEmpty_iff] at hrest
    subst hrest
    exact ⟨c, rfl, fun h => hc (.inl h)⟩
  | case9 => intro h; cases h
  | case10 => intro h; simp at h
  | case11 => intro h; cases h
  | case12 => intro h; cases h
  | case13 _ c rest hc _ _ _ _ _ _ _ ih =>
    -- the link's own text is walked first, then what followed the link
    intro h
    obtain ⟨c', hlast, hc'⟩ := ih h
    cases rest with
    | nil => exact ⟨c, rfl, fun h => hc (.inl h)⟩
    | cons r rs =>
      rw [List.getLast?_append] at hlast
      exact ⟨c', by simpa [List.getLast?_cons] using hlast, hc'⟩

/-- **Nothing below a file.** When `p` leads to a regular file, a path built by pushing
any component onto `p` leads nowhere. -/
theorem resolve_push_of_file {d : Disk} {p : String} {loc : Loc} {i : Nat}
    (hp : d.resolve p true = .ok (.node loc (.file i))) (s : String) :
    ∃ e, d.resolve (Path.push p s) true = .error e := by
  unfold resolve at hp
  split at hp
  · cases hp
  rename_i hplain
  unfold Path.push
  split
  · -- an absolute component replaces the path, and names nothing on this disk
    rename_i habs
    unfold resolve
    rw [if_pos (.inr habs)]
    exact ⟨_, rfl⟩
  split
  · -- a path ending in `/` leads to no file
    rename_i hend
    rcases Bool.or_eq_true_iff.mp hend with hempty | hslash
    · exact absurd (.inl hempty) hplain
    · obtain ⟨q, rfl⟩ := Path.eq_append_slash_of_endsWith hslash
      obtain ⟨c, hlast, hc⟩ := exists_getLast?_of_walk_file d true maxLinks [] _ hp
      rw [← @String.append_empty (q ++ "/"), Path.split_append_slash, Path.split_empty,
        List.getLast?_append, List.getLast?_singleton, Option.some_or] at hlast
      exact absurd (Option.some.inj hlast).symm hc
  · unfold resolve
    split
    · exact ⟨_, rfl⟩
    · rw [Path.split_append_slash]
      exact ⟨_, walk_append_of_file d true maxLinks [] _ (Path.split_ne_nil s) hp⟩

end Disk

end Metainfo
