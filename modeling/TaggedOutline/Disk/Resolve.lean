import TaggedOutline.Disk.Basic

/-!
# Resolving paths

Resolving a path replaces the links on the way by where they lead, whether the path leads anywhere
or not. The way goes over paths as they are written: from the base of the disk on it is relative, and
from the top on it is absolute. A link is taken to lead where it led before. If it is met again
while it is being followed, there is a loop: then the path of the link and the text after it are
left as they are, and so is the text after each link that is being followed.
-/

namespace TaggedOutline

/-- The links that were met so far, each with the path it leads to once that is known. -/
abbrev LinksMet := Table Path (Option Path)

/-- What a way ends with. -/
inductive WayEnd
  | reached (p : Path)
  /-- The text that a loop leaves unresolved. -/
  | loop (unresolved : Text)

/-- Two texts of paths, the second taken from the first. An absolute one stands for itself. -/
def joinWritten (base t : Text) : Text :=
  if t.head? = some '/' ∨ base = [] then t
  else if Text.endsWith ['/'] base then base ++ t
  else base ++ '/' :: t

/-- The names between the slashes of a text. -/
def written (t : Text) : List Text := Text.splitWhere (· == '/') t

namespace Disk

/-- Goes along names, and where `visit` says from a link. -/
def resolveAlong (d : Disk) (visit : LinksMet → Path → Path → Text → LinksMet × WayEnd)
    (met : LinksMet) (p : Path) : List Text → LinksMet × WayEnd
  | [] => (met, .reached p)
  | name :: rest =>
    if staysAt name then resolveAlong d visit met p rest
    else if name = ['.', '.'] then resolveAlong d visit met p.up rest
    else
      let next := p.join [name]
      match d.lookup false next.text with
      | .ok (_, .link target) =>
        match visit met p next target with
        | (met, .reached q) => resolveAlong d visit met q rest
        | (met, .loop t) => (met, .loop (joinWritten t (Text.joinWith ['/'] rest)))
      | _ => resolveAlong d visit met next rest

/-- Goes along names and follows at most `depth` links inside of one another. -/
def resolveFrom (d : Disk) : Nat → LinksMet → Path → List Text → LinksMet × WayEnd
  | 0, met, p, names => resolveAlong d (fun met _ link _ => (met, .loop link.text)) met p names
  | depth + 1, met, p, names =>
    let visit (met : LinksMet) (directory link : Path) (target : Text) : LinksMet × WayEnd :=
      match met.get? link with
      | some (some q) => (met, .reached q)
      | some none => (met, .loop link.text)
      | none =>
        let start := if target.head? = some '/' then Path.absolute [] else directory
        match resolveFrom d depth (met.put link none) start (written target) with
        | (met, .reached q) => (met.put link (some q), .reached q)
        | (met, .loop t) => (met, .loop t)
    resolveAlong d visit met p names

/-- Goes along names as they are written, without regard to links. -/
def goAlong (place : Place) : List Text → Place
  | [] => place
  | name :: rest =>
    if staysAt name then goAlong place rest
    else if name = ['.', '.'] then goAlong place.dropLast rest
    else goAlong (place ++ [name]) rest

/-- The absolute path that a text writes, without regard to links. -/
def absolutePath (d : Disk) (t : Text) : Path :=
  let full := joinWritten (Path.absolute d.base).text t
  ⟨Path.anchorOf full, goAlong [] (written full)⟩

/-- The most links that are followed inside of one another: there is no link that is met both by a
relative and by an absolute path more than once. -/
def resolveDepth (d : Disk) : Nat := 2 * d.entries.length + 1

/-- The absolute path that a written path stands for, links followed. -/
def realPath (d : Disk) (t : Text) : Path :=
  let start := if t.head? = some '/' then Path.absolute [] else ⟨[], []⟩
  match (d.resolveFrom d.resolveDepth [] start (written t)).2 with
  | .reached p => d.absolutePath p.text
  | .loop t => d.absolutePath t

/-- The place that a written path stands for, links followed. -/
def placeOf (d : Disk) (t : Text) : Place := (d.realPath t).names

end Disk

end TaggedOutline
