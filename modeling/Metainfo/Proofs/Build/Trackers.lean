import Metainfo.Proofs.Build.Reread

/-!
# Tracker tiers read back

A build takes its trackers as tiers, each a comma-separated list, and writes the first
tracker as `announce` and all tiers as `announce-list` when there is more than one
tracker. A reader takes the flattened `announce-list` when there is one, else `announce`.
This module shows the two meet:

* `ne_nil_of_mem_trackerTiers`: no tier and no tracker is empty, so the first tier's first
  tracker is the first tracker of all;
* `get?_announce_extraKeys`, `get?_announceList_extraKeys`: what a build writes under the
  two keys, whatever else it writes beside them;
* `trackers_of_extraKeys`, `announce?_of_extraKeys`: the trackers read from those keys
  are the tiers, flattened, and `announce` is the first of them;
* `build_tracker_tiers`: all of it for every torrent a build gives.
-/

namespace Metainfo

open Bencode

/-! ## The tiers -/

/-- No tier is empty, and no tracker in a tier is. -/
theorem ne_nil_of_mem_trackerTiers {announce : List String} {tier : List String}
    (h : tier ∈ trackerTiers announce) : tier ≠ [] ∧ ∀ url ∈ tier, url ≠ "" := by
  simp only [trackerTiers, List.mem_filter, List.mem_map] at h
  obtain ⟨⟨given, -, rfl⟩, hne⟩ := h
  refine ⟨by simpa using hne, fun url hurl => ?_⟩
  simp only [List.mem_filter, Bool.not_eq_true', String.isEmpty_eq_false_iff] at hurl
  exact hurl.2

/-- There are no tiers, or a first tier that starts with a tracker. -/
theorem trackerTiers_cases (announce : List String) :
    trackerTiers announce = [] ∨
      ∃ url urls rest, trackerTiers announce = (url :: urls) :: rest := by
  cases htiers : trackerTiers announce with
  | nil => exact .inl rfl
  | cons first rest =>
    have hfirst := (ne_nil_of_mem_trackerTiers (htiers ▸ List.mem_cons_self)).1
    obtain ⟨url, urls, rfl⟩ := List.exists_cons_of_ne_nil hfirst
    exact .inr ⟨url, urls, rest, rfl⟩

/-- The first tier's first tracker is the first tracker of all. -/
theorem head?_bind_head?_trackerTiers (announce : List String) :
    (trackerTiers announce).head?.bind List.head? = (trackerTiers announce).flatten.head? := by
  rcases trackerTiers_cases announce with h | ⟨url, urls, rest, h⟩ <;> rw [h] <;> rfl

/-- There is a first tracker exactly when there is a tier. -/
theorem isSome_head?_flatten_trackerTiers (announce : List String) :
    (trackerTiers announce).flatten.head?.isSome ↔ trackerTiers announce ≠ [] := by
  rcases trackerTiers_cases announce with h | ⟨url, urls, rest, h⟩ <;> rw [h] <;> simp

/-! ## What a build writes -/

section Keys

variable (opts : BuildOptions) (now : Int)

/-- `announce` holds the first tracker, and is left out when there is none. -/
theorem get?_announce_extraKeys :
    Dict.get? (extraKeys opts now) (key "announce") =
      ((trackerTiers opts.announce).head?.bind List.head?).map Value.string := by
  -- with the tiers' shape known, the keys written after the trackers are other keys
  rcases trackerTiers_cases opts.announce with h | ⟨url, urls, rest, h⟩ <;>
  · simp only [extraKeys, h]
    split <;> split <;>
      simp [get?_insert, key_inj, Dict.get?, apply_ite (Dict.get? · (key "announce"))]

/-- `announce-list` holds every tier, and is written only when there is more than one
tracker. -/
theorem get?_announceList_extraKeys :
    Dict.get? (extraKeys opts now) (key "announce-list") =
      if (trackerTiers opts.announce).length > 1 ∨
          ((trackerTiers opts.announce).head?.map (·.length)).getD 0 > 1 then
        some (.list ((trackerTiers opts.announce).map fun t => .list (t.map Value.string)))
      else none := by
  rcases trackerTiers_cases opts.announce with h | ⟨url, urls, rest, h⟩ <;>
  · simp only [extraKeys, h]
    split <;> split <;>
      simp [get?_insert, key_inj, Dict.get?, apply_ite (Dict.get? · (key "announce-list"))]

end Keys

/-! ## What a reader takes -/

/-- Reading the texts out of tiers of texts gives the tiers flattened. -/
theorem flatMap_strings (tiers : List (List String)) :
    ((tiers.map fun t => Value.list (t.map Value.string)).flatMap fun tier =>
      match tier with
      | .list urls => urls.filterMap Value.asStr?
      | _ => []) = tiers.flatten := by
  induction tiers with
  | nil => rfl
  | cons t rest ih =>
    simp [ih, List.filterMap_map]

/-- A list of at most one item is its first item, if any. -/
theorem toList_head?_of_length_le_one {α : Type} {l : List α} (h : l.length ≤ 1) :
    l.head?.toList = l := by
  match l, h with
  | [], _ => rfl
  | [_], _ => rfl

/-- The `announce` a reader takes from a build's keys is the first tracker. -/
theorem announce?_of_extraKeys {t : Torrent} {opts : BuildOptions} {now : Int}
    (h : t.extra = extraKeys opts now) :
    t.announce? = (trackerTiers opts.announce).flatten.head? := by
  rw [Torrent.announce?, Torrent.extraStr?, h, get?_announce_extraKeys,
    head?_bind_head?_trackerTiers, Option.bind_map]
  cases (trackerTiers opts.announce).flatten.head? <;> simp

/-- **The trackers a torrent's keys give.** When its top-level keys are those a build
writes, the trackers read from them are the tiers, flattened. -/
theorem trackers_of_extraKeys {t : Torrent} {opts : BuildOptions} {now : Int}
    (h : t.extra = extraKeys opts now) : t.trackers = (trackerTiers opts.announce).flatten := by
  rw [Torrent.trackers, h, get?_announceList_extraKeys]
  by_cases hmany : (trackerTiers opts.announce).length > 1 ∨
      ((trackerTiers opts.announce).head?.map (·.length)).getD 0 > 1
  · rw [if_pos hmany]
    exact flatMap_strings _
  · -- at most one tracker, so the reader's fallback on `announce` finds all of them
    rw [if_neg hmany]
    have hlen : (trackerTiers opts.announce).flatten.length ≤ 1 := by
      cases htiers : trackerTiers opts.announce with
      | nil => simp
      | cons first rest =>
        rw [htiers] at hmany
        simp only [List.length_cons, List.head?_cons, Option.map_some, Option.getD_some,
          not_or, Nat.not_lt] at hmany
        obtain ⟨hrest, hfirst⟩ := hmany
        rw [List.length_eq_zero_iff.mp (by omega : rest.length = 0)]
        simpa using hfirst
    show t.announce?.toList = _
    rw [announce?_of_extraKeys h, toList_head?_of_length_le_one hlen]

/-- **Tracker tiers survive a build.** Every torrent a build gives holds the first tracker
of the first tier as `announce`, exactly when some tier holds a tracker, and holds the
tiers as `announce-list` exactly when there is more than one tier or the first holds more
than one tracker. The trackers read back from it are the tiers, flattened, and `announce`
is the first of them. -/
theorem build_tracker_tiers {d : Disk} {rootName source : String} {output : Option String}
    {opts : BuildOptions} {w interval : Nat} {now : Int} {t : Torrent}
    (h : buildTorrent d rootName source output opts w interval now = .ok t) :
    Dict.get? t.extra (key "announce") =
        ((trackerTiers opts.announce).head?.bind List.head?).map Value.string ∧
      ((Dict.get? t.extra (key "announce")).isSome ↔ trackerTiers opts.announce ≠ []) ∧
      Dict.get? t.extra (key "announce-list") =
        (if (trackerTiers opts.announce).length > 1 ∨
            ((trackerTiers opts.announce).head?.map (·.length)).getD 0 > 1 then
          some (.list ((trackerTiers opts.announce).map fun tier => .list (tier.map Value.string)))
        else none) ∧
      t.trackers = (trackerTiers opts.announce).flatten ∧
      t.announce? = (trackerTiers opts.announce).flatten.head? := by
  obtain ⟨plan, pieces, -, -, rfl⟩ := buildTorrent_eq_ok h
  have hextra : (assemble plan pieces opts now).extra = extraKeys opts now := rfl
  refine ⟨hextra ▸ get?_announce_extraKeys opts now, ?_,
    hextra ▸ get?_announceList_extraKeys opts now,
    trackers_of_extraKeys hextra, announce?_of_extraKeys hextra⟩
  rw [hextra, get?_announce_extraKeys, head?_bind_head?_trackerTiers, Option.isSome_map,
    isSome_head?_flatten_trackerTiers]

/-- Build options with two tiers, `a, b` and `c`, writing no date. -/
def BuildOptions.tiered : BuildOptions :=
  ⟨.none, false, .none, ["a, b", "c"], true, .none, .none⟩

/-- Building the file `f` with two tiers succeeds, and the trackers read back from the
torrent are the tiers, flattened. -/
theorem tiered_build_reads_trackers :
    ∃ t, buildTorrent Disk.oneByteFile "root" "f" none BuildOptions.tiered 1 0 0 = .ok t ∧
      t.trackers = (trackerTiers BuildOptions.tiered.announce).flatten ∧
      t.announce? = (trackerTiers BuildOptions.tiered.announce).flatten.head? := by
  obtain ⟨pieces, hbuild⟩ := @buildTorrent_oneByteFile BuildOptions.tiered rfl
  have hread := build_tracker_tiers hbuild
  exact ⟨_, hbuild, hread.2.2.2.1, hread.2.2.2.2⟩

end Metainfo
