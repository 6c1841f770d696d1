/-
# JSON values as dicts

What a reader of a JSON value needs to know that a program has written: the value is read as it was,
the members of a dict with distinct keys are found one after the other, and a finite map that was
written as a dict is what its entries give.
-/
import PyRaftKv.Formats.Python
import PyRaftKv.Formats.RoundTrip

namespace Formats

open PyJson

theorem plainPython_reads (value : Json) :
    plainPython.loads (value.dump Json.compact) = .ok (ofJson value) :=
  plainPython_loads (Json.load_dump Json.compact value)

namespace PyJson

/-! ## 1. Dicts with distinct keys -/

variable {members : List (String × PyJson)} {key : String} {value : PyJson}

/-- The first entry under a key is the only one. -/
theorem lookup_of_mem_nodup {α κ : Type} [BEq κ] [LawfulBEq κ] {key : κ} {value : α} :
    ∀ {members : List (κ × α)}, (members.map (·.1)).Nodup → (key, value) ∈ members →
      members.lookup key = some value
  | [], _, h => by cases h
  | (k, x) :: members, hnd, h => by
    rw [List.map_cons, List.nodup_cons] at hnd
    rcases List.mem_cons.mp h with heq | hmem
    · cases heq
      simp
    · have hne : key ≠ k := by
        rintro rfl
        exact hnd.1 (List.mem_map.mpr ⟨_, hmem, rfl⟩)
      rw [List.lookup_cons, beq_eq_false_iff_ne.mpr hne]
      exact lookup_of_mem_nodup hnd.2 hmem

/-- Each member is found under its key. -/
theorem lookup_of_nodup (hnd : (members.map (·.1)).Nodup) (h : (key, value) ∈ members) :
    lookup members key = some value := by
  refine lookup_of_mem_nodup ?_ (List.mem_reverse.mpr h)
  rw [List.map_reverse]
  exact List.nodup_reverse.mpr hnd

theorem eraseDups_of_nodup {α : Type} [BEq α] [LawfulBEq α] : ∀ {l : List α}, l.Nodup →
    l.eraseDups = l
  | [], _ => rfl
  | a :: l, hnd => by
    rw [List.nodup_cons] at hnd
    have hkeep : l.filter (fun b => !b == a) = l := by
      refine List.filter_eq_self.mpr fun b hb => ?_
      have hne : b ≠ a := fun heq => hnd.1 (heq ▸ hb)
      simp [hne]
    rw [List.eraseDups_cons, hkeep, eraseDups_of_nodup hnd.2]

/-- The items of a dict with distinct keys are its members. -/
theorem items_of_nodup (hnd : (members.map (·.1)).Nodup) : items members = members := by
  unfold items keys
  rw [eraseDups_of_nodup hnd, List.filterMap_map]
  have hself : ∀ m ∈ members, (lookup members m.1).map (m.1, ·) = some m := by
    rintro ⟨k, x⟩ hm
    rw [lookup_of_nodup hnd hm]
    rfl
  calc members.filterMap (fun m => (lookup members m.1).map (m.1, ·))
      = members.filterMap some := List.filterMap_congr hself
    _ = members := List.filterMap_some

end PyJson

/-! ## 2. Finite maps as dicts -/

section Maps

variable {d : Std.ExtTreeMap String String} {entries : List (String × String)}

/-- The entries of a map, in whatever order, have distinct keys. -/
theorem keys_nodup_of_perm (h : entries.Perm d.toList) : (entries.map (·.1)).Nodup := by
  refine (h.map _).nodup_iff.mpr ?_
  rw [List.Nodup, List.pairwise_map]
  refine Std.ExtTreeMap.distinct_keys_toList.imp fun {a b} hne heq => ?_
  exact hne (Std.compare_eq_iff_eq.mpr heq)

/-- A map is what its entries give, put in one after the other in whatever order. -/
theorem foldl_insert_of_perm (h : entries.Perm d.toList) :
    entries.foldl (fun d (key, value) => d.insert key value) ∅ = d := by
  have hfold : entries.foldl (fun d (key, value) => d.insert key value) ∅ =
      Std.ExtTreeMap.ofList entries := Std.ExtTreeMap.ofList_eq_foldl.symm
  have hdistinct : entries.Pairwise fun a b => ¬ compare a.1 b.1 = .eq := by
    have hnd := keys_nodup_of_perm h
    rw [List.Nodup, List.pairwise_map] at hnd
    exact hnd.imp fun hne heq => hne (Std.compare_eq_iff_eq.mp heq)
  rw [hfold]
  refine Std.ExtTreeMap.ext_getElem? fun k => ?_
  rcases hk : d[k]? with _ | x
  · refine Std.ExtTreeMap.getElem?_ofList_of_contains_eq_false ?_
    rw [Bool.eq_false_iff, ne_eq, List.contains_iff_mem]
    intro hmem
    obtain ⟨⟨k', x⟩, hm, rfl⟩ := List.mem_map.mp hmem
    rw [Std.ExtTreeMap.mem_toList_iff_getElem?_eq_some.mp (h.mem_iff.mp hm)] at hk
    cases hk
  · exact Std.ExtTreeMap.getElem?_ofList_of_mem Std.compare_self hdistinct
      (h.mem_iff.mpr (Std.ExtTreeMap.mem_toList_iff_getElem?_eq_some.mpr hk))

end Maps

end Formats
