import OsAllHw.Lib.Words

/-!
# Paths

The lexical resolution of a path: its components one after the other from a
directory, which is known by its own components from the top.
-/

namespace Lib

abbrev Component := List Char

/-- The non-empty pieces of a path between slashes. -/
def components (path : List Char) : List Component := words (fun c => c == '/') path

/-- The directory one component leads to; none above the top. -/
def enter (dir : List Component) (c : Component) : Option (List Component) :=
  if c = ".".toList then some dir
  else if c = "..".toList then if dir = [] then none else some dir.dropLast
  else some (dir ++ [c])

/-- The directory some components lead to. -/
def resolve : List Component → List Component → Option (List Component)
  | dir, [] => some dir
  | dir, c :: cs => (enter dir c).bind fun dir => resolve dir cs

/-- `dir` is `root` or below. -/
def Below (root : List Component) (dir : Option (List Component)) : Prop :=
  ∃ d, dir = some d ∧ root <+: d

/-- The path leads from the top to `root`, and from then on every directory
on the way is `root` or below. -/
def StaysIn (root : List Component) (path : List Char) : Prop :=
  ∃ first rest, components path = first ++ rest ∧ resolve [] first = some root ∧
    ∀ k, Below root (resolve root (rest.take k))

/-- Without `..` the way leads down only. -/
theorem resolve_below {root dir cs : List Component} (hdir : root <+: dir)
    (hcs : "..".toList ∉ cs) : Below root (resolve dir cs) := by
  induction cs generalizing dir with
  | nil => exact ⟨dir, rfl, hdir⟩
  | cons c cs ih =>
      obtain ⟨hc, hcs⟩ := not_or.mp (mt List.mem_cons.mpr hcs)
      rw [resolve, enter]
      by_cases hdot : c = ".".toList
      · rw [if_pos hdot]
        exact ih hdir hcs
      · rw [if_neg hdot, if_neg (Ne.symm hc)]
        exact ih (hdir.trans (List.prefix_append dir [c])) hcs

theorem components_append_slash (path path' : List Char) :
    components (path ++ '/' :: path') = components path ++ components path' :=
  words_append_sep rfl

/-- What a component contains, the path does. -/
theorem infix_of_mem_components {path : List Char} {c : Component} (h : c ∈ components path) :
    c <:+: path :=
  (of_mem_words h).2.2

/-- **A path that goes to `root` and on without `..`** stays there. -/
theorem staysIn_append {root : List Component} {path path' : List Char}
    (hroot : resolve [] (components path) = some root)
    (hdots : "..".toList ∉ components path') : StaysIn root (path ++ '/' :: path') := by
  refine ⟨components path, components path', components_append_slash path path', hroot, fun k => ?_⟩
  exact resolve_below List.prefix_rfl fun hmem => hdots (List.mem_of_mem_take hmem)

end Lib
