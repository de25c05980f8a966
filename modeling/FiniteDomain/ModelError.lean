import FiniteDomain.Decimal.Shortest
import FiniteDomain.Extent

/-!
# Errors of a model

A malformed request made while a model is built.  It is an answer to the one who made the request,
and never arises during a search.
-/

namespace FiniteDomain

inductive ModelError
  | sizeMismatch (constraint : String) (sizes : List Nat)
  | invalidFraction (constraint : String) (fraction : Float)
  | negativeExtent (constraint : String) (item : Nat) (extent : Int)
  | extentTooLarge (constraint : String) (item : Nat) (extent : Int)
  | unknownBrancher (id : Nat)
  | invalidPosition (brancher pos size : Nat)
deriving Repr

namespace ModelError

def message : ModelError → String
  | sizeMismatch constraint sizes =>
    let sizes := ", ".intercalate (sizes.map toString)
    s!"{constraint}: argument arrays have mismatched sizes [{sizes}]"
  | invalidFraction constraint fraction =>
    let fraction := Decimal.render fraction
    s!"{constraint}: mandatory fraction {fraction} is not in the open interval (0, 1)"
  | negativeExtent constraint item extent =>
    s!"{constraint}: negative extent {extent} for item {item}"
  | extentTooLarge constraint item extent =>
    s!"{constraint}: extent {extent} for item {item} exceeds the largest supported value"
  | unknownBrancher id => s!"no brancher with id {id}"
  | invalidPosition brancher pos size =>
    s!"choice refers to position {pos} but brancher {brancher} only has {size} variables"

/-- Lists that describe the same items must have the same length. -/
def checkSizes (constraint : String) (sizes : List Nat) : Except ModelError Unit :=
  if sizes.all fun n => sizes.head? = some n then .ok () else .error (.sizeMismatch constraint sizes)

/-- The extents of the given lengths, the first item having number `item`.  The first length that is
none is reported. -/
def checkExtents (constraint : String) : Nat → List Int → Except ModelError (List Extent)
  | _, [] => .ok []
  | item, n :: rest =>
    match Extent.ofInt? n with
    | some e => (checkExtents constraint (item + 1) rest).map (e :: ·)
    | none =>
      if n < 0 then .error (.negativeExtent constraint item n)
      else .error (.extentTooLarge constraint item n)

theorem length_of_checkExtents {constraint : String} {item : Nat} {ns : List Int}
    {es : List Extent} (h : checkExtents constraint item ns = .ok es) : es.map Extent.length = ns := by
  induction ns generalizing item es with
  | nil => simp_all [checkExtents]
  | cons n rest ih =>
      unfold checkExtents at h
      split at h
      · rename_i e he
        cases hr : checkExtents constraint (item + 1) rest with
        | error _ => simp [hr, Except.map] at h
        | ok es' =>
            simp only [hr, Except.map, Except.ok.injEq] at h
            subst h
            simp [ih hr, Extent.ofInt?_eq_some_iff.1 he]
      · split at h <;> simp at h

end ModelError

end FiniteDomain
