import Mathlib.Data.List.Basic
import JavaAbi.Symbols.Enclosing

namespace JavaAbi

/-!
# Names of declaring types

The name of a precompiled type is cut twice: behind its package, and at the last dot of what follows.
What stands before that dot is the name of the declaring type. Its length is a difference of lengths,
and that length ends at the dot, whatever the characters before it are.

* `Descriptor.restOfName?_eq_some_iff` — what follows the package in a name;
* `Descriptor.enclosingSlice?_eq` — the front of the computed length is the name before the last dot;
* `Descriptor.enclosing_name` — how a name splits.
-/

namespace Descriptor

variable {d : Descriptor}

theorem packageFront_of_ne {package : String} (h : package ≠ "") :
    packageFront package = package.toList ++ ['.'] := by
  simp [packageFront, h]

/-- **What follows the package.** -/
theorem restOfName?_eq_some_iff {rest : List Char} :
    d.restOfName? = some rest ↔ d.qualifiedName.toList = packageFront d.package ++ rest := by
  by_cases h : d.package = ""
  · simp [restOfName?, packageFront, h]
  · rw [packageFront_of_ne h, List.append_assoc, List.singleton_append,
      eq_comm (a := d.qualifiedName.toList)]
    simp [restOfName?, h, Option.bind_eq_some_iff, List.isPrefixOf?_eq_some_iff_append_eq]

/-- The declaring type has the name before the last dot behind the package. -/
theorem enclosingType?_of_rest {rest : List Char} (h : d.restOfName? = some rest) :
    d.enclosingType? =
      (splitLastDot? rest).map fun p => String.ofList (packageFront d.package ++ p.1) := by
  have hname := restOfName?_eq_some_iff.1 h
  have hfront : (packageFront d.package).isPrefixOf d.qualifiedName.toList = true :=
    List.isPrefixOf_iff_prefix.2 ⟨rest, hname.symm⟩
  simp only [enclosingType?, if_pos hfront]
  rw [hname, List.drop_left]
  cases splitLastDot? rest <;> rfl

theorem enclosingType?_of_no_rest (h : d.restOfName? = none) : d.enclosingType? = none := by
  have hfront : ¬(packageFront d.package).isPrefixOf d.qualifiedName.toList = true := by
    intro hprefix
    obtain ⟨rest, hrest⟩ := List.isPrefixOf_iff_prefix.1 hprefix
    rw [restOfName?_eq_some_iff.2 hrest.symm] at h
    cases h
  simp only [enclosingType?, if_neg hfront]

/-- **The front of the computed length is the name of the declaring type.** -/
theorem enclosingSlice?_eq (d : Descriptor) : d.enclosingSlice? = d.enclosingType?.map some := by
  cases hrest : d.restOfName? with
  | none => simp [enclosingSlice?, enclosingLength?, hrest, enclosingType?_of_no_rest hrest]
  | some rest =>
    have hname := restOfName?_eq_some_iff.1 hrest
    rw [enclosingType?_of_rest hrest]
    cases hsplit : splitLastDot? rest with
    | none => simp [enclosingSlice?, enclosingLength?, hrest, hsplit]
    | some p =>
      obtain ⟨outer, last⟩ := p
      obtain ⟨rfl, -⟩ := eq_append_of_splitLastDot? hsplit
      -- the name less what follows the package, and the part of that before the last dot
      have hlength : minus? (byteLength d.qualifiedName.toList) (byteLength (outer ++ '.' :: last)) =
          some (byteLength (packageFront d.package)) := by
        rw [hname, byteLength_append, minus?, if_pos (Nat.le_add_left _ _), Nat.add_sub_cancel]
      have htake : takeBytes? (byteLength (packageFront d.package) + byteLength outer)
          d.qualifiedName.toList = some (packageFront d.package ++ outer) := by
        rw [hname, ← byteLength_append, ← List.append_assoc]
        exact takeBytes?_append _ _
      simp [-byteLength_append, -byteLength_cons, enclosingSlice?, enclosingLength?, hrest, hsplit,
        hlength, htake]

/-- A declaring type and what parts its name from that of the member. -/
theorem split_of_enclosingType? {outer : String} (h : d.enclosingType? = some outer) :
    d.qualifiedName = outer ++ "." ++ d.simpleName ∧ '.' ∉ d.simpleName.toList ∧
      packageFront d.package <+: outer.toList := by
  cases hrest : d.restOfName? with
  | none =>
    rw [enclosingType?_of_no_rest hrest] at h
    cases h
  | some rest =>
    have hname := restOfName?_eq_some_iff.1 hrest
    rw [enclosingType?_of_rest hrest] at h
    obtain ⟨⟨middle, last⟩, hsplit, rfl⟩ := Option.map_eq_some_iff.1 h
    obtain ⟨rfl, hlast⟩ := eq_append_of_splitLastDot? hsplit
    have hsimple : d.simpleName = String.ofList last := by
      rw [simpleName, lastSegment, hname, ← List.append_assoc, splitLastDot?_append _ _ hlast]
    refine ⟨?_, ?_, ?_⟩
    · rw [← String.toList_inj, hsimple, hname]
      simp
    · rwa [hsimple, String.toList_ofList]
    · rw [String.toList_ofList]
      exact List.prefix_append _ _

/-- Behind a package, the segments of a name but the last are those of the declaring type. -/
theorem enclosingType?_of_segments (hpackage : d.package ≠ "") {segments : List String}
    (hne : segments ≠ []) (hdots : ∀ s ∈ segments, '.' ∉ s.toList)
    (hname : d.qualifiedName = ".".intercalate (d.package :: segments)) :
    d.enclosingType? =
      if segments.length = 1 then none
      else some (".".intercalate (d.package :: segments.dropLast)) := by
  have hrest : d.restOfName? = some (".".intercalate segments).toList := by
    rw [restOfName?_eq_some_iff, hname, String.intercalate_cons_of_ne_nil hne,
      packageFront_of_ne hpackage]
    simp
  obtain ⟨front, last, rfl⟩ : ∃ front last, segments = front ++ [last] :=
    ⟨_, _, (List.dropLast_concat_getLast hne).symm⟩
  have hlast : '.' ∉ last.toList := hdots last (by simp)
  rw [enclosingType?_of_rest hrest]
  by_cases hfront : front = []
  · -- With a single segment there is no dot behind the package.
    subst hfront
    have hnone : splitLastDot? last.toList = none := splitLastDot?_eq_none_iff.2 hlast
    simp [hnone]
  · -- Else the last dot is the one before the last segment.
    have hmany : (front ++ [last]).length ≠ 1 := by
      have := List.length_pos_iff.2 hfront
      rw [List.length_append, List.length_singleton]
      omega
    have htext : (".".intercalate (front ++ [last])).toList =
        (".".intercalate front).toList ++ '.' :: last.toList := by
      rw [String.intercalate_append_of_ne_nil hfront (by simp)]
      simp
    rw [if_neg hmany, htext, splitLastDot?_append _ _ hlast, List.dropLast_concat, Option.map_some,
      String.intercalate_cons_of_ne_nil hfront, packageFront_of_ne hpackage]
    refine congrArg some ?_
    rw [← String.toList_inj]
    simp

/-- **How a name splits**, for any texts as name and package. The front of the computed length exists
    whenever there is a declaring type, so it ends between two characters, and it is that type's
    name. This name, a dot and the simple name make up the qualified name, and with a package it
    starts with the package and a dot. Segments without dots behind a package give the name without
    the last one when there are two or more, and none when there is one; and there is none when the
    name does not start with its package and a dot. -/
theorem enclosing_name (d : Descriptor) :
    d.enclosingSlice? = d.enclosingType?.map some ∧
    (∀ outer, d.enclosingType? = some outer →
      d.qualifiedName = outer ++ "." ++ d.simpleName ∧ '.' ∉ d.simpleName.toList ∧
      outer.utf8ByteSize < d.qualifiedName.utf8ByteSize ∧
      (d.package ≠ "" → (d.package ++ ".").toList <+: outer.toList)) ∧
    (d.package ≠ "" → ∀ segments : List String, segments ≠ [] → (∀ s ∈ segments, '.' ∉ s.toList) →
      d.qualifiedName = ".".intercalate (d.package :: segments) →
      d.enclosingType? =
        if segments.length = 1 then none
        else some (".".intercalate (d.package :: segments.dropLast))) ∧
    (d.package ≠ "" → ¬(d.package ++ ".").toList <+: d.qualifiedName.toList →
      d.enclosingType? = none) := by
  have hfront (h : d.package ≠ "") : (d.package ++ ".").toList = packageFront d.package := by
    rw [packageFront_of_ne h, String.toList_append]
    rfl
  refine ⟨enclosingSlice?_eq d, fun outer h => ?_, fun hpackage segments hne hdots hname =>
    enclosingType?_of_segments hpackage hne hdots hname, fun hpackage hno => ?_⟩
  · obtain ⟨hname, hdot, hprefix⟩ := split_of_enclosingType? h
    refine ⟨hname, hdot, ?_, fun hpackage => by rwa [hfront hpackage]⟩
    have hone : ".".utf8ByteSize = 1 := rfl
    rw [hname, String.utf8ByteSize_append, String.utf8ByteSize_append, hone]
    omega
  · cases hrest : d.restOfName? with
    | none => exact enclosingType?_of_no_rest hrest
    | some rest =>
      refine absurd ⟨rest, ?_⟩ hno
      rw [hfront hpackage, restOfName?_eq_some_iff.1 hrest]

/-- A member type in a package of two segments, with a character of two bytes before the cut. -/
theorem enclosing_name_member :
    let d : Descriptor := ⟨"a.é.Ü.Ñ", "a.é", .classType, [], [], none, []⟩
    d.package ≠ "" ∧ d.qualifiedName = ".".intercalate (d.package :: ["Ü", "Ñ"]) ∧
      d.enclosingType? = some "a.é.Ü" ∧ d.enclosingLength? = some (some 7) ∧
      d.enclosingSlice? = some (some "a.é.Ü") ∧
      d.qualifiedName = "a.é.Ü" ++ "." ++ d.simpleName ∧
      (d.package ++ ".").toList <+: "a.é.Ü".toList := by
  intro d
  have hpackage : d.package ≠ "" := by decide
  have hname : d.qualifiedName = ".".intercalate (d.package :: ["Ü", "Ñ"]) := by decide +kernel
  obtain ⟨hslice, hsplit, hsegments, -⟩ := enclosing_name d
  have houter : d.enclosingType? = some "a.é.Ü" :=
    (hsegments hpackage ["Ü", "Ñ"] (by simp) (by decide) hname).trans (by decide +kernel)
  have hparts := hsplit _ houter
  exact ⟨hpackage, hname, houter, by decide +kernel, by rw [hslice, houter]; rfl, hparts.1,
    hparts.2.2.2 hpackage⟩

end Descriptor

end JavaAbi
