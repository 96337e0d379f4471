import Mathlib.Tactic.Common

namespace HamixOS.Kernel

/-!
# Error numbers

The codes of `kernel/src/errno.rs` that the modelled calls return.
-/

def eperm : Int := -1
def enoent : Int := -2
def esrch : Int := -3
def eintr : Int := -4
def ebadf : Int := -9
def eagain : Int := -11
def enomem : Int := -12
def eacces : Int := -13
def efault : Int := -14
def ebusy : Int := -16
def eexist : Int := -17
def enotdir : Int := -20
def eisdir : Int := -21
def einval : Int := -22
def emfile : Int := -24
def enospc : Int := -28
def epipe : Int := -32
def edestaddrreq : Int := -89
def emsgsize : Int := -90
def eprototype : Int := -91
def eopnotsupp : Int := -95
def eaddrinuse : Int := -98
def enetdown : Int := -100
def eisconn : Int := -106
def enotconn : Int := -107
def econnrefused : Int := -111

end HamixOS.Kernel
