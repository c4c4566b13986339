import StackLowering.Cli.Command
import Mathlib.Data.List.TakeWhile
import Mathlib.Tactic.SplitIfs

/-!
# The places that paths lead to

Paths are compared by their components, files by their places. A path leads to the place that its
components lead to, one after the other, from the working directory. So paths with the same
components lead to the same place, and the converse fails: a dot in front, or a name that two dots
take back, tells two paths to one place apart.

The path with another extension is not one of these: when it leads to the place of the path itself,
it has the same components.

## Main definitions

* `Path.place` — the place that a path leads to

## Main results

* `FileStore.place_of_resolve` — a store looks for a path at the place that it leads to
* `Path.same_of_place_withExtension` — another extension leads elsewhere, or changes nothing
-/

namespace StackLowering

namespace Path

/-- The place that a component leads to. -/
def Component.follow (place : List String) : Component → List String
  | .root => []
  | .current => place
  | .parent => place.dropLast
  | .normal name => place ++ [name]

/-- The place that a path leads to from a directory. -/
def place (directory : List String) (path : String) : List String :=
  (components path).foldl Component.follow directory

/-- Paths that are compared equal lead to the same place. -/
theorem place_eq_of_same {a b : String} (h : same a b = true) (directory : List String) :
    place directory a = place directory b := by
  have hcomponents : components a = components b := eq_of_beq h
  rw [place, hcomponents, place]

/-! ### Segments -/

theorem segments_ne_nil (cs : List Char) : segments cs ≠ [] := by
  cases cs with
  | nil => simp [segments]
  | cons c cs =>
    rw [segments]
    split_ifs
    · simp
    · split <;> simp

theorem segments_append_slash (cs rest : List Char) :
    segments (cs ++ '/' :: rest) = segments cs ++ segments rest := by
  induction cs with
  | nil => simp [segments]
  | cons c cs ih =>
    rw [List.cons_append, segments, segments, ih]
    split_ifs
    · rfl
    · cases hcs : segments cs with
      | nil => exact absurd hcs (segments_ne_nil cs)
      | cons => rfl

theorem segments_of_not_mem {cs : List Char} (h : '/' ∉ cs) : segments cs = [cs] := by
  induction cs with
  | nil => rfl
  | cons c cs ih =>
    rw [List.mem_cons, not_or] at h
    rw [segments, if_neg (Ne.symm h.1), ih h.2]

/-- The components behind the start of a path. -/
def names (cs : List Char) : List Component := (segments cs).filterMap componentOf

theorem names_append_slash (cs rest : List Char) :
    names (cs ++ '/' :: rest) = names cs ++ names rest := by
  rw [names, segments_append_slash, List.filterMap_append, names, names]

theorem names_of_not_mem {cs : List Char} (h : '/' ∉ cs) : names cs = (componentOf cs).toList := by
  rw [names, segments_of_not_mem h]
  cases hcs : componentOf cs <;> simp [hcs]

/-- Empty segments have no component. -/
theorem names_eq_filterMap_filter (cs : List Char) :
    names cs = ((segments cs).filter (· ≠ [])).filterMap componentOf := by
  rw [names, List.filterMap_filter]
  congr 1
  funext x
  by_cases hx : x = []
  · simp [hx, componentOf]
  · simp [hx]

/-- The component at the start of a path. -/
def start (cs : List Char) : List Component :=
  if cs.head? = some '/' then [.root]
  else if (segments cs).head? = some ['.'] then [.current]
  else []

theorem components_ofList (cs : List Char) : components (.ofList cs) = start cs ++ names cs := by
  rw [components, String.toList_ofList, names, start]
  congr 1
  generalize segments cs = parts
  cases cs with
  | nil => cases parts with
    | nil => rfl
    | cons x parts => split <;> simp_all
  | cons c cs => cases parts with
    | nil => split <;> simp_all
    | cons x parts => split <;> simp_all

theorem components_eq (path : String) :
    components path = start path.toList ++ names path.toList := by
  rw [← components_ofList, String.ofList_toList]

/-- The first component says where a path starts. -/
theorem foldl_start (cs : List Char) (directory : List String) :
    (start cs).foldl Component.follow directory
      = if cs.head? = some '/' then [] else directory := by
  unfold start
  split_ifs <;> rfl

theorem place_eq (directory : List String) (path : String) :
    place directory path = (names path.toList).foldl Component.follow
      (if path.toList.head? = some '/' then [] else directory) := by
  rw [place, components_eq, List.foldl_append, foldl_start]

/-- Behind a path, a slash and segments without a component change nothing. -/
theorem components_append_slash {cs rest : List Char} (hcs : cs ≠ []) (hrest : names rest = []) :
    components (.ofList (cs ++ '/' :: rest)) = components (.ofList cs) := by
  have hhead {α : Type} {xs ys : List α} (hxs : xs ≠ []) : (xs ++ ys).head? = xs.head? := by
    rw [List.head?_append, List.head?_eq_some_head hxs, Option.some_or]
  rw [components_ofList, components_ofList, names_append_slash, hrest, List.append_nil, start,
    start, segments_append_slash, hhead hcs, hhead (segments_ne_nil cs)]

end Path

/-! ### Resolving a path -/

namespace FileStore

open StackLowering.Path (componentOf Component)

/-- The walk along segments leads to the place that their components lead to. -/
theorem place_of_walk {s : FileStore} {slash : Bool} {directory : List String}
    {segments : List (List Char)} {t : Target} (hne : ∀ x ∈ segments, x ≠ [])
    (h : s.walk slash directory segments = .ok t) :
    t.place = (segments.filterMap componentOf).foldl Component.follow directory := by
  fun_induction FileStore.walk s slash directory segments with
  | case1 | case2 | case3 => cases h; rfl
  | case4 directory last hdot hdots =>
    cases h
    have hlast : last ≠ [] := hne last (.head _)
    simp [componentOf, hdot, hdots, hlast, Target.place, Component.follow]
  | case5 directory rest _ ih => exact ih (fun x hx => hne x (.tail _ hx)) h
  | case6 directory rest _ _ ih => exact ih (fun x hx => hne x (.tail _ hx)) h
  | case7 directory next rest _ hdot hdots place hplace ih =>
    have hnext : next ≠ [] := hne next (.head _)
    have hcomponent : componentOf next = some (.normal (.ofList next)) := by
      simp [componentOf, hdot, hdots, hnext]
    rw [List.filterMap_cons_some hcomponent, List.foldl_cons]
    exact ih (fun x hx => hne x (.tail _ hx)) h
  | case8 => cases h
  | case9 => cases h

/-- A store looks for a path at the place that it leads to. -/
theorem place_of_resolve {s : FileStore} {path : String} {t : Target}
    (h : s.resolve path = .ok t) : t.place = Path.place s.workingDirectory path := by
  have hplace := place_of_walk (fun x hx => by simpa using (List.mem_filter.mp hx).2) h
  rw [hplace, Path.place_eq, Path.names_eq_filterMap_filter]

end FileStore

/-! ### Another extension -/

namespace Path

variable {cs front : List Char} {directory : List String} {path : String}

/-- Only short segments have a meaning of their own. -/
theorem componentOf_of_length (h : 2 < cs.length) :
    componentOf cs = some (.normal (.ofList cs)) := by
  have hblank : ¬(cs = [] ∨ cs = ['.']) := by
    rintro (rfl | rfl) <;> simp at h
  have hparent : cs ≠ ['.', '.'] := by
    rintro rfl
    simp at h
  rw [componentOf, if_neg hblank, if_neg hparent]

/-- A path leads on by its last segment from where its front leads to. -/
theorem place_append (hfront : front = [] ∨ ∃ f, front = f ++ ['/']) (hcs : '/' ∉ cs) :
    place directory (.ofList (front ++ cs))
      = (componentOf cs).toList.foldl Component.follow (place directory (.ofList front)) := by
  have hhead : (front ++ cs).head? = some '/' ↔ front.head? = some '/' := by
    cases front with
    | nil => simpa using fun h => hcs (List.mem_of_head? h)
    | cons => simp
  have hnames : names (front ++ cs) = names front ++ (componentOf cs).toList := by
    rw [← names_of_not_mem hcs]
    rcases hfront with rfl | ⟨f, rfl⟩
    · rfl
    · rw [List.append_assoc, List.singleton_append, names_append_slash, names_append_slash f []]
      simp [names, segments, componentOf]
  simp only [place_eq, String.toList_ofList, hhead, hnames, List.foldl_append]

/-- The end that is left out of a path does not change what it is compared by. -/
theorem exists_reverse_dropEnd (r : List Char) :
    ∃ rest, r.reverse = (dropEnd r).reverse ++ rest ∧
      ∀ cs, cs ≠ [] → components (.ofList (cs ++ rest)) = components (.ofList cs) := by
  fun_induction dropEnd r with
  | case1 r ih =>
    obtain ⟨rest, hrest, hsame⟩ := ih
    refine ⟨rest ++ ['/'], by simp [hrest], fun cs hcs => ?_⟩
    rw [← hsame cs hcs, ← List.append_assoc]
    exact components_append_slash (by simp [hcs]) rfl
  | case2 r ih =>
    obtain ⟨rest, hrest, hsame⟩ := ih
    refine ⟨rest ++ ['/', '.'], by simp [hrest], fun cs hcs => ?_⟩
    rw [← hsame cs hcs, ← List.append_assoc]
    exact components_append_slash (by simp [hcs]) rfl
  | case3 r => exact ⟨[], by simp, fun cs _ => by rw [List.append_nil]⟩

/-- A name starts with its stem. -/
theorem exists_eq_stem_append (cs : List Char) : ∃ rest, cs = (splitName cs).1 ++ rest := by
  simp only [splitName]
  split
  · exact ⟨[], (List.append_nil cs).symm⟩
  · exact ⟨[], (List.append_nil cs).symm⟩
  · rename_i c before _ hdrop
    have hsplit := List.takeWhile_append_dropWhile (p := (· != '.')) (l := cs.reverse)
    rw [hdrop] at hsplit
    refine ⟨c :: (cs.reverse.takeWhile (· != '.')).reverse, ?_⟩
    rw [← List.reverse_inj, List.reverse_append, List.reverse_reverse, List.reverse_cons,
      List.reverse_reverse, List.append_assoc, List.singleton_append, hsplit]

/-- What the last name of a path is in the path. -/
theorem exists_of_lastName {n : Name} (h : lastName path = some n) :
    ∃ cs, components path = components (.ofList (n.front ++ cs)) ∧
      (n.front = [] ∨ ∃ f, n.front = f ++ ['/']) ∧ '/' ∉ cs ∧
      componentOf cs = some (.normal (.ofList cs)) ∧ ∃ rest, cs = n.stem ++ rest := by
  obtain ⟨rest, hrest, hsame⟩ := exists_reverse_dropEnd path.toList.reverse
  rw [List.reverse_reverse] at hrest
  simp only [lastName] at h
  generalize dropEnd path.toList.reverse = kept at h hrest
  split at h
  · cases h
  · rename_i hcomponent
    cases h
    have hkept := List.takeWhile_append_dropWhile (p := (· != '/')) (l := kept)
    have hfront : (kept.dropWhile (· != '/')).reverse = [] ∨
        ∃ f, (kept.dropWhile (· != '/')).reverse = f ++ ['/'] := by
      cases hdrop : kept.dropWhile (· != '/') with
      | nil => exact .inl rfl
      | cons c f =>
        have hne : kept.dropWhile (· != '/') ≠ [] := by simp [hdrop]
        have hslash := List.head_dropWhile_not _ hne
        obtain rfl : c = '/' := by simpa [hdrop] using hslash
        exact .inr ⟨f.reverse, by simp⟩
    have hname : '/' ∉ (kept.takeWhile (· != '/')).reverse := fun hmem => by
      simpa using List.mem_takeWhile_imp (List.mem_reverse.mp hmem)
    have hpath : path.toList = (kept.dropWhile (· != '/')).reverse
        ++ (kept.takeWhile (· != '/')).reverse ++ rest := by
      rw [hrest, ← List.reverse_append, hkept]
    generalize (kept.takeWhile (· != '/')).reverse = cs at hcomponent hname hpath
    have hnormal : componentOf cs = some (.normal (.ofList cs)) := by
      unfold componentOf at hcomponent ⊢
      split_ifs at hcomponent ⊢ <;> simp_all
    refine ⟨cs, ?_, hfront, hname, hnormal, exists_eq_stem_append cs⟩
    rw [← hsame, ← hpath, String.ofList_toList]
    rintro hnil
    obtain ⟨-, rfl⟩ := List.append_eq_nil_iff.mp hnil
    cases hnormal

/-- **Another extension leads elsewhere, or changes nothing**: the path with the extension of
assembly text leads to the place of the path itself only if it has the same components. -/
theorem same_of_place_withExtension
    (h : place directory (withExtension path assemblyExtension) = place directory path) :
    same (withExtension path assemblyExtension) path = true := by
  cases hname : lastName path with
  | none => simp [withExtension, hname, same]
  | some n =>
    obtain ⟨cs, hcomponents, hfront, hcs, hnormal, rest, hstem⟩ := exists_of_lastName hname
    have hplace : place directory path = place directory (.ofList n.front) ++ [.ofList cs] := by
      rw [place, hcomponents, ← place, place_append hfront hcs, hnormal]
      rfl
    rw [hplace] at h
    simp only [withExtension, hname] at h ⊢
    split_ifs at h ⊢
    · -- two dots lead upwards
      rw [place_append hfront (by decide)] at h
      have hlength := congrArg List.length h
      simp [componentOf, Component.follow] at hlength
    · have hslash : '/' ∉ n.stem := fun hmem => hcs (hstem ▸ List.mem_append_left rest hmem)
      have htext : String.ofList (n.front ++ n.stem) ++ "." ++ assemblyExtension
          = .ofList (n.front ++ (n.stem ++ ['.', 'c', 'i', 'r'])) := by
        simp [assemblyExtension, ← String.toList_inj]
      rw [htext, place_append hfront (by simp [hslash]), componentOf_of_length (by simp)] at h
      have hname : String.ofList (n.stem ++ ['.', 'c', 'i', 'r']) = .ofList cs := by
        simpa [Component.follow] using h
      rw [htext, String.ofList_inj.mp hname, same, hcomponents, beq_self_eq_true]

end Path

end StackLowering
