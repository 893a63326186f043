import Mathlib.Init

/-!
# Statuses

`util::Status` with the codes of `firestore_errors.h`.  A source function that takes or
returns a `StatusOr<T>` works on `Except Status T` here.
-/

namespace Firebase.Firestore.Util

/-- `Error`, without `kErrorOk`: a `Status` here is always one of a failure. -/
inductive Error where
  | cancelled | unknown | invalidArgument | deadlineExceeded | notFound | alreadyExists
  | permissionDenied | resourceExhausted | failedPrecondition | aborted | outOfRange
  | unimplemented | internal | unavailable | dataLoss | unauthenticated
deriving DecidableEq

structure Status where
  code : Error
  message : String
deriving DecidableEq

end Firebase.Firestore.Util
