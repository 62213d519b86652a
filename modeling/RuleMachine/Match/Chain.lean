import RuleMachine.Match.Validity

/-! # Match chains

A rule collects the descriptors of all the scopes it stands in. They stay apart
until the chain is resolved, so that an error can name each declaration that
took part in it.
-/

namespace RuleMachine

/-- The descriptors that apply to one rule, outermost scope first. -/
abbrev MatchChain (D : Domain) := List (Descriptor D)

namespace MatchChain

variable {D : Domain}

/-- Where the resolution of a chain stands: everything combined so far, or the
errors found so far. -/
abbrev Progress (D : Domain) := Except (List (MatchError D)) (Option (Descriptor D))

/-- Take one more link into account. The link has to be well formed, and so has
its combination with the links outside it; after a first error combinations are
no longer looked at. -/
def extend (progress : Progress D) (link : Descriptor D) : Progress D :=
  match progress, link.validate with
  | .ok outer, .ok valid =>
    let combined := match outer with
      | some descriptor => descriptor.combine valid
      | none => valid
    match combined.validate with
    | .ok resolved => .ok (some resolved)
    | .error error => .error [error]
  | .ok _, .error error => .error [error]
  | .error errors, .ok _ => .error errors
  | .error errors, .error error => .error (errors ++ [error])

/-- Merge the links into a single descriptor. Errors of one kind are merged as
well, so one error lists all the declarations involved. -/
def resolve (chain : MatchChain D) : Except (List (MatchError D)) (Descriptor D) :=
  match chain.foldl extend (.ok none) with
  | .ok resolved => .ok (resolved.getD .unconstrained)
  | .error errors => .error (MatchError.mergeByKind errors)

end MatchChain

end RuleMachine
