import Mathlib

namespace Jnu

-- The error codes of `errno.h` that the modelled calls return.
inductive Errno
  | enoent
  | eio
  | e2big
  | enoexec
  | enomem
  | eacces
  | efault
  | ebusy
  | eexist
  | exdev
  | enodev
  | enotdir
  | eisdir
  | einval
  | enospc
  | emlink
  | enametoolong
  | enosys
  deriving DecidableEq, Repr

end Jnu
